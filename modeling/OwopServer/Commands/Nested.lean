import OwopServer.Commands
import OwopServer.Server.Worlds

/-!
# Commands of commands

`Commands::doas` runs a text as a command of another client: it puts its arguments from the
third one on together again, and `Commands::exec` cuts them.  `doas_exec` says that this ends,
and that the arguments arrive as they were.
-/

namespace Owop

open Bytes (ofString)

namespace Commands

variable [Platform]

/-! ### One call -/

/-- What `exec` does with the arguments for a client: `nested` makes the call inside of
`doas`. -/
def dispatch (nested : Server → ClientPtr → Bytes → Bool × Server) (s : Server) (p : ClientPtr)
    (cl : Client) (name : Bytes) (args : List Bytes) : Bool × Server :=
  match search nested cl.rank name with
  | none => (false, s)
  | some (announced, command) =>
      let run (s : Server) := command (s.note (.exec cl.ws (name :: args))) p (name :: args)
      (true, if announced then s.withWorld cl.wrld fun _ => s.withInfo cl.ws fun _ => run s
        else run s)

/-- The body of `exec`: `nested` makes the call inside of `doas`. -/
def execBody (nested : Server → ClientPtr → Bytes → Bool × Server) (s : Server) (p : ClientPtr)
    (msg : Bytes) : Bool × Server :=
  match splitArgs msg, s.clients p with
  | [], _ => (false, s)
  | _, none => (false, s.misuse)
  | name :: args, some cl => dispatch nested s p cl name args

theorem execFuel_succ (fuel : ℕ) :
  execFuel (fuel + 1) = execBody (execFuel fuel)
  := by
  funext s p msg
  rw [execFuel, execBody]
  rfl

variable {args : List Bytes}

omit [Platform] in
/-- Two tables with the same names whose commands do the same with some arguments. -/
theorem find_congr {cmds cmds' : List (Bytes × Command)}
    (h : List.Forall₂ (fun a b => a.1 = b.1 ∧ ∀ s p, a.2 s p args = b.2 s p args) cmds cmds')
    (name : Bytes) :
  Option.Rel (fun f g => ∀ s p, f s p args = g s p args) (find cmds name) (find cmds' name)
  := by
  induction h with
  | nil => exact Option.Rel.none
  | @cons a b cmds cmds' hab _ ih =>
      obtain ⟨hname, hsame⟩ := hab
      rw [find, find, List.find?_cons, List.find?_cons, ← hname]
      cases decide (a.1 = name) with
      | true => exact Option.Rel.some hsame
      | false => exact ih

/-- Whatever runs the text of `doas`, the same command is found. -/
theorem search_congr {e e' : Server → ClientPtr → Bytes → Bool × Server}
    (h : ∀ s p, doas e s p args = doas e' s p args) (rank : Rank) (name : Bytes) :
  Option.Rel (fun f g => f.1 = g.1 ∧ ∀ s p, f.2 s p args = g.2 s p args)
    (search e rank name) (search e' rank name)
  := by
  have htables : List.Forall₂ (fun a b => a.1 = b.1 ∧ ∀ s p, a.2 s p args = b.2 s p args)
      (admincmds e) (admincmds e') := by
    simp [admincmds, admincmdNames, h]
  have hadmin := find_congr htables name
  have hrefl : ∀ o : Option (Bool × Command), Option.Rel
      (fun f g => f.1 = g.1 ∧ ∀ s p, f.2 s p args = g.2 s p args) o o := by
    intro o
    cases o with
    | none => exact Option.Rel.none
    | some f => exact Option.Rel.some ⟨rfl, fun _ _ => rfl⟩
  rw [search, search]
  generalize find (admincmds e) name = found at hadmin ⊢
  generalize find (admincmds e') name = found' at hadmin ⊢
  split
  · cases hadmin with
    | none => exact hrefl _
    | some hsame => exact Option.Rel.some ⟨rfl, hsame⟩
  · exact hrefl _

/-- What makes the nested call matters only for the text of `doas`, and so only if there are
three arguments. -/
theorem dispatch_congr {e e' : Server → ClientPtr → Bytes → Bool × Server} {name : Bytes}
    (h : 3 ≤ (name :: args).length →
      ∀ s p, e s p (joinArgs (name :: args) 2) = e' s p (joinArgs (name :: args) 2))
    (s : Server) (p : ClientPtr) (cl : Client) :
  dispatch e s p cl name args = dispatch e' s p cl name args
  := by
  have hdoas : ∀ s p, doas e s p (name :: args) = doas e' s p (name :: args) := by
    intro s p
    rw [doas, doas]
    congr 1
    funext cl
    split
    case isTrue hlen => simp only [h hlen]
    case isFalse => rfl
  have hsearch := search_congr hdoas cl.rank name
  rw [dispatch, dispatch]
  generalize search e cl.rank name = found at hsearch ⊢
  generalize search e' cl.rank name = found' at hsearch ⊢
  cases hsearch with
  | none => rfl
  | @some f g hsame =>
      obtain ⟨announced, f⟩ := f
      obtain ⟨announced', g⟩ := g
      obtain ⟨rfl, hfg⟩ := hsame
      dsimp only at hfg ⊢
      simp only [hfg]

theorem execBody_congr {e e' : Server → ClientPtr → Bytes → Bool × Server} {msg : Bytes}
    (h : 3 ≤ (splitArgs msg).length →
      ∀ s p, e s p (joinArgs (splitArgs msg) 2) = e' s p (joinArgs (splitArgs msg) 2))
    (s : Server) (p : ClientPtr) :
  execBody e s p msg = execBody e' s p msg
  := by
  rw [execBody, execBody]
  split
  case h_1 => rfl
  case h_2 => rfl
  case h_3 name args cl hargs hcl =>
    apply dispatch_congr
    rw [← hargs]
    exact h

/-! ### The text of `doas` -/

omit [Platform] in
/-- An argument is not empty and contains no space. -/
theorem mem_splitArgs {msg arg : Bytes} (h : arg ∈ splitArgs msg) :
  arg ≠ [] ∧ 32 ∉ arg
  := by
  constructor
  · obtain rfl | hmsg := eq_or_ne msg []
    · have hzero : splitArgs [] = [[0]] := by decide
      rw [hzero, List.mem_singleton] at h
      rw [h]
      exact List.cons_ne_nil 0 []
    · rw [splitArgs_eq_tokens hmsg, tokens, List.mem_filter] at h
      simpa using h.2
  · exact space_notMem_splitArgs h

omit [Platform] in
/-- The pieces of arguments behind a text without a space are it and the arguments. -/
theorem tokens_foldl {rest : List Bytes} (hrest : ∀ arg ∈ rest, arg ≠ [] ∧ 32 ∉ arg)
    {arg : Bytes} (harg : arg ≠ []) (hspace : 32 ∉ arg) :
  tokens (rest.foldl (fun value arg => value ++ ([32] ++ arg)) arg) = arg :: rest
  := by
  have hpiece : ∀ b : Bytes, b ≠ [] → piece b = [b] := fun b hb => if_neg hb
  have hfold : ∀ (rest : List Bytes) (value : Bytes),
      rest.foldl (fun value arg => value ++ ([32] ++ arg)) value
        = value ++ rest.flatMap fun arg => 32 :: arg := by
    intro rest
    induction rest with
    | nil => simp
    | cons arg rest ih =>
        intro value
        rw [List.foldl_cons, ih]
        simp
  rw [hfold]
  induction rest generalizing arg with
  | nil => rw [List.flatMap_nil, List.append_nil, tokens_piece hspace, hpiece arg harg]
  | cons next rest ih =>
      obtain ⟨⟨hnext, hnospace⟩, hrest⟩ := List.forall_mem_cons.mp hrest
      rw [List.flatMap_cons, List.cons_append, tokens_space hspace, hpiece arg harg,
        ih hrest hnext hnospace]
      rfl

omit [Platform] in
/-- Arguments that are put together are cut into themselves. -/
theorem splitArgs_joinArgs {n : ℕ} (hn : n < args.length)
    (h : ∀ arg ∈ args, arg ≠ [] ∧ 32 ∉ arg) :
  splitArgs (joinArgs args n) = args.drop n
  := by
  obtain ⟨hne, hspace⟩ := h args[n] (List.getElem_mem hn)
  have hrest : ∀ arg ∈ args.drop (n + 1), arg ≠ [] ∧ 32 ∉ arg :=
    fun arg harg => h arg (List.mem_of_mem_drop harg)
  have htokens := tokens_foldl hrest hne hspace
  have hjoin : joinArgs args n ≠ [] := by
    have hlen := length_joinArgs hn
    rw [List.drop_eq_getElem_cons hn, List.map_cons, List.sum_cons] at hlen
    have hpos := List.length_pos_of_ne_nil hne
    apply List.ne_nil_of_length_pos
    omega
  rw [splitArgs_eq_tokens hjoin, joinArgs, List.getD_eq_getElem _ _ hn, htokens,
    List.drop_eq_getElem_cons hn]

omit [Platform] in
/-- The arguments of a text from the third one on are those of the text of `doas`. -/
theorem splitArgs_doas {msg : Bytes} (h : 3 ≤ (splitArgs msg).length) :
  splitArgs (joinArgs (splitArgs msg) 2) = (splitArgs msg).drop 2
  := splitArgs_joinArgs h fun _ => mem_splitArgs

/-! ### The calls end -/

/-- The text of `doas` has two arguments less, and so the calls inside of each other end: with
`n` of them for less than `2 * n` arguments, what would make one more does not matter. -/
theorem iterate_execBody {e e' : Server → ClientPtr → Bytes → Bool × Server} {n n' : ℕ}
    {msg : Bytes} (h : (splitArgs msg).length < 2 * n) (h' : (splitArgs msg).length < 2 * n')
    (s : Server) (p : ClientPtr) :
  execBody^[n] e s p msg = execBody^[n'] e' s p msg
  := by
  induction n generalizing n' msg s p with
  | zero => omega
  | succ n ih =>
      obtain ⟨m, rfl⟩ : ∃ m, n' = m + 1 := ⟨n' - 1, by omega⟩
      rw [Function.iterate_succ_apply', Function.iterate_succ_apply']
      apply execBody_congr
      intro hlen s p
      have hshort := congrArg List.length (splitArgs_doas hlen)
      rw [List.length_drop] at hshort
      exact ih (by omega) (by omega) s p

omit [Platform] in
/-- A text has no more arguments than characters, or the one of the empty text. -/
theorem length_splitArgs_le (msg : Bytes) :
  (splitArgs msg).length < 2 * (msg.length + 1)
  := by
  obtain rfl | hmsg := eq_or_ne msg []
  · decide
  · have hsum := sum_length_splitArgs msg hmsg
    have hlen : (splitArgs msg).length
        ≤ ((splitArgs msg).map fun arg => arg.length + 1).sum := by
      rw [← List.length_map (fun arg : Bytes => arg.length + 1)]
      apply List.length_le_sum_of_one_le
      intro k hk
      obtain ⟨arg, -, rfl⟩ := List.mem_map.mp hk
      omega
    omega

theorem execFuel_eq_iterate (fuel : ℕ) :
  execFuel fuel = execBody^[fuel] (execFuel 0)
  := by
  induction fuel with
  | zero => rfl
  | succ fuel ih => rw [execFuel_succ, ih, Function.iterate_succ_apply']

/-- Calls inside of each other end, whatever would make one more. -/
theorem iterate_execBody_eq_exec (nested : Server → ClientPtr → Bytes → Bool × Server) {n : ℕ}
    {msg : Bytes} (h : (splitArgs msg).length < 2 * n) (s : Server) (p : ClientPtr) :
  execBody^[n] nested s p msg = exec s p msg
  := by
  rw [exec, execFuel_eq_iterate]
  exact iterate_execBody h (length_splitArgs_le msg) s p

/-- `exec` is made of its body and the calls of `exec` inside of it. -/
theorem exec_eq_execBody (s : Server) (p : ClientPtr) (msg : Bytes) :
  exec s p msg = execBody exec s p msg
  := by
  have hlen := length_splitArgs_le msg
  rw [← iterate_execBody_eq_exec exec hlen, Function.iterate_succ_apply']
  apply execBody_congr
  intro hlong s p
  have hshort := congrArg List.length (splitArgs_doas hlong)
  rw [List.length_drop] at hshort
  exact iterate_execBody_eq_exec exec (by omega) s p

/-- Commands inside of each other end: a text of less than `2 * n` arguments makes no more than
`n` calls of `exec`, so that what would make another one does not matter.  A `doas` with the id
of a client in the world of its caller runs `exec` for that client, with the arguments from the
third one on and what its own rank allows. -/
theorem doas_exec :
  (∀ (nested : Server → ClientPtr → Bytes → Bool × Server) (n : ℕ) (s : Server) (p : ClientPtr)
    (msg : Bytes), (splitArgs msg).length < 2 * n →
    execBody^[n] nested s p msg = exec s p msg) ∧
  (∀ (s : Server) (p : ClientPtr) (msg : Bytes), exec s p msg = execBody exec s p msg) ∧
  (∀ (s : Server) (p : ClientPtr) (cl : Client) (w : World) (msg : Bytes) (id : ℕ)
    (target : ClientPtr), s.clients p = some cl → s.objs cl.wrld = some w →
    3 ≤ (splitArgs msg).length → stoul 10 (arg (splitArgs msg) 1) = .ok id →
    s.getCli w (UInt32.ofNat id) = some target →
    ∃ t name args, s.clients target = some t ∧ (splitArgs msg).drop 2 = name :: args ∧
      splitArgs (joinArgs (splitArgs msg) 2) = name :: args ∧
      doas exec s p (splitArgs msg) = (exec s target (joinArgs (splitArgs msg) 2)).2 ∧
      exec s target (joinArgs (splitArgs msg) 2) = dispatch exec s target t name args)
  := by
  and_intros
  · exact fun nested n s p msg h => iterate_execBody_eq_exec nested h s p
  · exact exec_eq_execBody
  · intro s p cl w msg id target hcl hw hlen hid htarget
    obtain ⟨t, ht⟩ : ∃ t, s.clients target = some t := by
      have hany := List.find?_some htarget
      exact Option.isSome_iff_exists.mp (Option.isSome_of_any hany)
    obtain ⟨name, args, hdrop⟩ : ∃ name args, (splitArgs msg).drop 2 = name :: args := by
      apply List.exists_cons_of_length_pos
      rw [List.length_drop]
      omega
    have hsplit := splitArgs_doas hlen
    rw [hdrop] at hsplit
    refine ⟨t, name, args, ht, hdrop, hsplit, ?_, ?_⟩
    · simp only [doas, Server.withClient, hcl, ge_iff_le, if_pos hlen, withNum, hid, withTarget,
        Server.withWorld, hw, htarget, ht]
    · rw [exec_eq_execBody, execBody, hsplit, ht]

omit [Platform] in
/-- The only client of a world runs a command as itself: the id resolves, and the inner command
gets the arguments from the third one on. -/
theorem doas_exec_join :
  let _ := Platform.quiet
  let s := (Server.new (ofString "m") (ofString "a") [] (Disk.empty fun _ => true) 0).runs
    Server.joinEvents
  doas exec s 0 (splitArgs (ofString "doas 1 tell 1 hello"))
    = (exec s 0 (joinArgs (splitArgs (ofString "doas 1 tell 1 hello")) 2)).2 ∧
  splitArgs (joinArgs (splitArgs (ofString "doas 1 tell 1 hello")) 2)
    = [ofString "tell", ofString "1", ofString "hello"]
  := by
  let _ := Platform.quiet
  let s := (Server.new (ofString "m") (ofString "a") [] (Disk.empty fun _ => true) 0).runs
    Server.joinEvents
  have hcl : (s.clients 0).any (fun cl => (s.objs cl.wrld).any fun w =>
      s.getCli w (UInt32.ofNat 1) == some 0) = true := by
    decide +kernel
  obtain ⟨cl, hcl, hw⟩ := (Option.any_eq_true _ _).mp hcl
  obtain ⟨w, hw, htarget⟩ := (Option.any_eq_true _ _).mp hw
  obtain ⟨t, name, args, -, hdrop, hsplit, hrun, -⟩ := doas_exec.2.2 s 0 cl w
    (ofString "doas 1 tell 1 hello") 1 0 hcl hw (by decide +kernel) (by decide +kernel)
    (beq_iff_eq.mp htarget)
  use hrun
  rw [hsplit, ← hdrop]
  decide +kernel

end Commands

end Owop
