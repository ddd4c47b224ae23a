import OwopServer.Database.Props
import OwopServer.Server.Steps

/-!
# The lists of addresses on disk

`Server::writefiles` writes each of the three lists to its file, one address a line, and
`Server::readfiles` reads the lines that are not empty.  So a list comes back exactly if its
addresses are lines: commands may add texts with line breaks.
-/

namespace Owop

open Bytes (ofString)

/-- An address that fills a line of a file. -/
def FillsLine (ip : Bytes) : Prop := ip ≠ [] ∧ 10 ∉ ip

/-! ### Lines -/

/-- The file of a list of addresses. -/
def listFile (ips : List Bytes) : Bytes := (ips.map fun ip => ip ++ [10]).flatten

theorem splitOn_listFile {ips : List Bytes} (h : ∀ ip ∈ ips, 10 ∉ ip) :
  (listFile ips).splitOn 10 = ips ++ [[]]
  := by
  induction ips with
  | nil => exact List.splitOn_nil 10
  | cons ip ips ih =>
      have hrest := ih fun ip' hip' => h ip' (List.mem_cons_of_mem ip hip')
      have hfile : listFile (ip :: ips) = ip ++ 10 :: listFile ips := by
        rw [listFile, List.map_cons, List.flatten_cons, List.append_assoc, List.singleton_append]
        rfl
      rw [hfile, List.splitOn_append_cons_self_of_not_mem (h ip List.mem_cons_self), hrest,
        List.cons_append]

/-- The addresses are the lines of their file that are not empty, exactly if each fills a line. -/
theorem lines_listFile_iff (ips : List Bytes) :
  (∀ ip, ip ∈ (listFile ips).splitOn 10 ∧ ip ≠ [] ↔ ip ∈ ips) ↔ ∀ ip ∈ ips, FillsLine ip
  := by
  constructor
  · intro h ip hip
    obtain ⟨hline, hne⟩ := (h ip).mpr hip
    exact ⟨hne, Bytes.notMem_of_mem_splitOn hline⟩
  · intro h ip
    rw [splitOn_listFile fun ip hip => (h ip hip).2, List.mem_append, List.mem_singleton]
    constructor
    · rintro ⟨hip | hip, hne⟩
      · exact hip
      · exact absurd hip hne
    · intro hip
      exact ⟨Or.inl hip, (h ip hip).1⟩

namespace Server

/-- The addresses read from some lines. -/
theorem mem_foldl_lines (lines ips : List Bytes) (ip : Bytes) :
  ip ∈ lines.foldl (fun ips ip => if ip.length > 0 then ips.insert ip else ips) ips ↔
    ip ∈ ips ∨ ip ∈ lines ∧ ip ≠ []
  := by
  induction lines generalizing ips with
  | nil => simp
  | cons line lines ih =>
      rw [List.foldl_cons, ih, List.mem_cons]
      by_cases hline : line = []
      · rw [hline, if_neg (by simp)]
        constructor
        · rintro (hip | ⟨hip, hne⟩)
          · exact Or.inl hip
          · exact Or.inr ⟨Or.inr hip, hne⟩
        · rintro (hip | ⟨rfl | hip, hne⟩)
          · exact Or.inl hip
          · exact absurd rfl hne
          · exact Or.inr ⟨hip, hne⟩
      · rw [if_pos (List.length_pos_of_ne_nil hline), List.mem_insert_iff]
        constructor
        · rintro ((rfl | hip) | ⟨hip, hne⟩)
          · exact Or.inr ⟨Or.inl rfl, hline⟩
          · exact Or.inl hip
          · exact Or.inr ⟨Or.inr hip, hne⟩
        · rintro (hip | ⟨rfl | hip, hne⟩)
          · exact Or.inl (Or.inr hip)
          · exact Or.inl (Or.inl rfl)
          · exact Or.inr ⟨hip, hne⟩

/-! ### The files of the lists -/

variable [Platform] {s s' : Server}

/-- What is read from the file of a list. -/
theorem readList_of_intact {d : Disk} {file : FileName} {ips : List Bytes}
    (hok : (readList d file []).2.intact) (hfile : d.files ([], file) = some (listFile ips)) :
  (∀ ip, ip ∈ (readList d file []).1 ↔ ip ∈ (listFile ips).splitOn 10 ∧ ip ≠ []) ∧
    (readList d file []).2.files = d.files
  := by
  rw [readList] at hok ⊢
  have hread : (d.readFile ([], file)).2.intact := hok
  obtain ⟨t, heq, -⟩ := Disk.readFile_of_intact hread
  rw [heq, hfile]
  refine ⟨?_, rfl⟩
  intro ip
  dsimp only
  rw [Option.getD_some, mem_foldl_lines]
  simp

/-- Writing a list makes its file anew. -/
theorem writeList_of_intact {d : Disk} {file : FileName} {ips : List Bytes}
    (hok : (writeList d file ips).intact) :
  (writeList d file ips).files = Function.update d.files ([], file) (some (listFile ips))
  := by
  have hput : writeList d file ips
      = Database.putFile d ([], file) (some (ips.map fun ip => ip ++ [10])) := rfl
  rw [hput] at hok ⊢
  exact (Database.putFile_of_intact hok).1

/-- Reading a list forgets no failure. -/
theorem readList_intact {d : Disk} {file : FileName} {ips : List Bytes}
    (hok : (readList d file ips).2.intact) :
  d.intact
  := (Disk.within_readFile ∅ [] d ([], file)).intact hok

/-- Writing a list forgets no failure. -/
theorem writeList_intact {d : Disk} {file : FileName} {ips : List Bytes}
    (hok : (writeList d file ips).intact) :
  d.intact
  := by
  have hwithin := Database.within_putFile [] d (Set.mem_singleton (([], file) : Path))
    (some (ips.map fun ip => ip ++ [10]))
  exact hwithin.intact hok

/-- The files after the lists were written. -/
theorem writefiles_of_intact (hok : s.writefiles.disk.intact) :
  s.writefiles.disk.files ([], .bans) = some (listFile s.ipban) ∧
    s.writefiles.disk.files ([], .whitelist) = some (listFile s.ipwhitelist) ∧
    s.writefiles.disk.files ([], .blacklist) = some (listFile s.ipblacklist)
  := by
  rw [writefiles] at hok ⊢
  dsimp only at hok ⊢
  have hok₂ := writeList_intact hok
  have hok₁ := writeList_intact hok₂
  rw [writeList_of_intact hok, writeList_of_intact hok₂, writeList_of_intact hok₁]
  refine ⟨?_, ?_, ?_⟩
  · rw [Function.update_of_ne (by simp), Function.update_of_ne (by simp), Function.update_self]
  · rw [Function.update_of_ne (by simp), Function.update_self]
  · rw [Function.update_self]

/-- A fresh server on the files that the lists were written to. -/
def restart (s : Server) (modpw adminpw path : Bytes) (clock : ℚ) : Server :=
  Server.new modpw adminpw path s.writefiles.disk clock

omit [Platform] in
/-- The same addresses are on the lists of two servers. -/
structure SameLists (s s' : Server) : Prop where
  ipban : ∀ ip, ip ∈ s'.ipban ↔ ip ∈ s.ipban
  ipwhitelist : ∀ ip, ip ∈ s'.ipwhitelist ↔ ip ∈ s.ipwhitelist
  ipblacklist : ∀ ip, ip ∈ s'.ipblacklist ↔ ip ∈ s.ipblacklist

/-- What is on the lists of a fresh server. -/
theorem restart_lists (modpw adminpw path : Bytes) (clock : ℚ)
    (hok : (s.restart modpw adminpw path clock).disk.intact) :
  (∀ ip, ip ∈ (s.restart modpw adminpw path clock).ipban ↔
      ip ∈ (listFile s.ipban).splitOn 10 ∧ ip ≠ []) ∧
    (∀ ip, ip ∈ (s.restart modpw adminpw path clock).ipwhitelist ↔
      ip ∈ (listFile s.ipwhitelist).splitOn 10 ∧ ip ≠ []) ∧
    ∀ ip, ip ∈ (s.restart modpw adminpw path clock).ipblacklist ↔
      ip ∈ (listFile s.ipblacklist).splitOn 10 ∧ ip ≠ []
  := by
  have hdisk : (s.restart modpw adminpw path clock).disk
      = (readList (readList (readList s.writefiles.disk .bans []).2 .whitelist []).2
          .blacklist []).2 := rfl
  rw [hdisk] at hok
  have hok₂ := readList_intact hok
  have hok₁ := readList_intact hok₂
  obtain ⟨hbans, hwhitelist, hblacklist⟩ := writefiles_of_intact (readList_intact hok₁)
  obtain ⟨hread₁, hfiles₁⟩ := readList_of_intact hok₁ hbans
  rw [← hfiles₁] at hwhitelist hblacklist
  obtain ⟨hread₂, hfiles₂⟩ := readList_of_intact hok₂ hwhitelist
  rw [← hfiles₂] at hblacklist
  exact ⟨hread₁, hread₂, (readList_of_intact hok hblacklist).1⟩

/-- The lists of a server come back in a fresh one exactly if each address on them fills a
line. -/
theorem sameLists_restart_iff (s : Server) (modpw adminpw path : Bytes) (clock : ℚ)
    (hok : (s.restart modpw adminpw path clock).disk.intact) :
  SameLists s (s.restart modpw adminpw path clock) ↔
    (∀ ip ∈ s.ipban, FillsLine ip) ∧ (∀ ip ∈ s.ipwhitelist, FillsLine ip) ∧
      ∀ ip ∈ s.ipblacklist, FillsLine ip
  := by
  obtain ⟨hbans, hwhitelist, hblacklist⟩ := restart_lists modpw adminpw path clock hok
  rw [← lines_listFile_iff, ← lines_listFile_iff, ← lines_listFile_iff]
  simp only [← hbans, ← hwhitelist, ← hblacklist]
  constructor
  · exact fun h => ⟨h.ipban, h.ipwhitelist, h.ipblacklist⟩
  · rintro ⟨hban, hwhite, hblack⟩
    exact ⟨hban, hwhite, hblack⟩

/-- An administrator adds the text `ban` to the bans. -/
def banEvents (ban : Bytes) : List Event :=
  [.connect (ofString "a"), .message 0 .binary (ofString "w..") 0 0,
    .message 0 .text (ofString "/adminlogin a\n") 1 1,
    .message 0 .text (ofString "/bans add " ++ ban ++ [10]) 1 1]

omit [Platform] in
/-- A text of two lines comes back as two bans. -/
theorem not_sameLists_restart :
  ¬ ∀ [Platform] (modpw adminpw path : Bytes) (d : Disk) (clock : ℚ) (events : List Event),
    let s := (Server.new modpw adminpw path d clock).runs events
    (s.restart modpw adminpw path clock).disk.intact →
      SameLists s (s.restart modpw adminpw path clock)
  := by
  intro h
  let _ := Platform.quiet
  have hsame := h (ofString "m") (ofString "a") [] (Disk.empty fun _ => true) 0
    (banEvents (ofString "x\ny")) (by decide +kernel)
  have hban := hsame.ipban (ofString "x")
  exact absurd hban (by decide +kernel)

omit [Platform] in
/-- A ban of one line comes back. -/
theorem sameLists_restart_iff_line :
  let _ := Platform.quiet
  let s := (Server.new (ofString "m") (ofString "a") [] (Disk.empty fun _ => true) 0).runs
    (banEvents (ofString "x"))
  s.ipban = [ofString "x"] ∧ SameLists s (s.restart (ofString "m") (ofString "a") [] 0)
  := by
  let _ := Platform.quiet
  let s := (Server.new (ofString "m") (ofString "a") [] (Disk.empty fun _ => true) 0).runs
    (banEvents (ofString "x"))
  have hban : s.ipban = [ofString "x"] := by decide +kernel
  have hothers : s.ipwhitelist = [] ∧ s.ipblacklist = [] := by decide +kernel
  refine ⟨hban, ?_⟩
  apply (sameLists_restart_iff s (ofString "m") (ofString "a") [] 0 (by decide +kernel)).mpr
  rw [hban, hothers.1, hothers.2]
  refine ⟨?_, by simp, by simp⟩
  intro ip hip
  rw [List.mem_singleton] at hip
  rw [hip]
  exact ⟨by decide +kernel, by decide +kernel⟩

end Server

end Owop
