import OwopServer.Server.Connections

/-!
# The start of the program

`gen_random_str` and `main` of `main.cpp`.  The passwords that the command line does not give are
made by `gen_random_str`, which seeds the generator with the time whenever it is called.  So they
differ only if the time does.
-/

namespace Owop

open Bytes (ofString)

/-! ### Random texts -/

/-- The state of the generator behind `rand`: the last seed, and how many numbers were drawn
since. -/
structure Prng where
  seed : UInt32
  draws : ℕ

/-- `rand`, where the function `numbers` gives the numbers drawn after each seed. -/
def Prng.rand (numbers : UInt32 → ℕ → ℕ) (g : Prng) : ℕ × Prng :=
  (numbers g.seed g.draws, { g with draws := g.draws + 1 })

/-- `srand` -/
def Prng.srand (_g : Prng) (seed : UInt32) : Prng := ⟨seed, 0⟩

/-- The characters that `gen_random_str` chooses from. -/
def alphanum : Bytes :=
  ofString "0123456789ABCDEFGHIJKLMNOPQRSTUVWXYZabcdefghijklmnopqrstuvwxyz?_"

/-- The loop of `gen_random_str`. -/
def randomLoop (numbers : UInt32 → ℕ → ℕ) : ℕ → Prng → Bytes × Prng
  | 0, g => ([], g)
  | size + 1, g =>
      let (n, g) := g.rand numbers
      let (str, g) := randomLoop numbers size g
      (alphanum.getD (n % alphanum.length) 0 :: str, g)

/-- `gen_random_str`, called at the time `now`. -/
def genRandomStr (numbers : UInt32 → ℕ → ℕ) (now : ℕ) (size : ℕ) (g : Prng) : Bytes × Prng :=
  randomLoop numbers size (g.srand (UInt32.ofNat now))

/-! ### Passwords -/

/-- The passwords that `main` makes when it is not given them. -/
inductive Secret where
  | modpw
  | adminpw
  | devpw
  deriving DecidableEq

/-- The number of the argument that gives a password. -/
def Secret.index : Secret → ℕ
  | modpw => 2
  | adminpw => 3
  | devpw => 4

/-- Evaluate the expression for a password, at the time `now`. -/
def Secret.eval (numbers : UInt32 → ℕ → ℕ) (argv : List Bytes) (now : ℕ) (a : Secret) (g : Prng) :
    Bytes × Prng :=
  match argv[a.index]? with
  | some pw => (pw, g)
  | none => genRandomStr numbers now 10 g

/-- Evaluate the expressions for the passwords in the order `order`; that for the password `a` is
evaluated at the time `now a`. -/
def secrets (numbers : UInt32 → ℕ → ℕ) (argv : List Bytes) (now : Secret → ℕ) :
    List Secret → Prng → (Secret → Bytes) → Secret → Bytes
  | [], _, pws => pws
  | a :: order, g, pws =>
      let (pw, g) := a.eval numbers argv (now a) g
      secrets numbers argv now order g (Function.update pws a pw)

namespace Server

/-- `Server::is_adminpw` -/
def isAdminpw (s : Server) (pw : Bytes) : Bool := pw == s.adminpw

/-- `Server::is_modpw` -/
def isModpw (s : Server) (pw : Bytes) : Bool := pw == s.modpw

end Server

/-- `main` up to the call of `Server::run`, on files `d` and with the clock of the limiters at
`clock`.  The arguments of `new Server` are evaluated in some order.  A port that is not a number
ends the program. -/
def main [Platform] (numbers : UInt32 → ℕ → ℕ) (argv : List Bytes) (now : Secret → ℕ)
    (order : List Secret) (d : Disk) (clock : ℚ) : Option Server :=
  match stoul 10 (argv.getD 1 (ofString "1337")) with
  | .error _ => none
  | .ok _ =>
      let pws := secrets numbers argv now order ⟨1, 0⟩ fun _ => []
      some (Server.new (pws .modpw) (pws .adminpw) (argv.getD 5 (ofString "chunkdata")) d clock)

/-! ### What is generated -/

variable {numbers : UInt32 → ℕ → ℕ}

theorem length_alphanum :
  alphanum.length = 64
  := by decide

theorem nodup_alphanum :
  alphanum.Nodup
  := by decide

/-- The characters are distinct. -/
theorem alphanum_inj (m n : ℕ) :
  alphanum.getD (m % alphanum.length) 0 = alphanum.getD (n % alphanum.length) 0 ↔ m % 64 = n % 64
  := by
  have hm : m % alphanum.length < alphanum.length := Nat.mod_lt _ (by decide)
  have hn : n % alphanum.length < alphanum.length := Nat.mod_lt _ (by decide)
  rw [List.getD_eq_getElem _ _ hm, List.getD_eq_getElem _ _ hn,
    nodup_alphanum.getElem_inj_iff, length_alphanum]

/-- The characters of a random text. -/
theorem randomLoop_eq (size : ℕ) (g : Prng) :
  (randomLoop numbers size g).1 = (List.range size).map fun i =>
    alphanum.getD (numbers g.seed (g.draws + i) % alphanum.length) 0
  := by
  induction size generalizing g with
  | zero => rfl
  | succ size ih =>
      have hrest := ih ⟨g.seed, g.draws + 1⟩
      rw [List.range_succ_eq_map, List.map_cons, List.map_map]
      show _ :: (randomLoop numbers size ⟨g.seed, g.draws + 1⟩).1 = _
      rw [hrest]
      congr 1
      apply List.map_congr_left
      intro i _
      rw [Function.comp_apply, Nat.add_right_comm, Nat.add_assoc]

/-- Two random texts are the same if the first draws after the seeds of the two times are, as far
as they choose characters. -/
theorem genRandomStr_eq_iff (now now' size : ℕ) (g g' : Prng) :
  (genRandomStr numbers now size g).1 = (genRandomStr numbers now' size g').1 ↔
    ∀ i < size, numbers (UInt32.ofNat now) i % 64 = numbers (UInt32.ofNat now') i % 64
  := by
  rw [genRandomStr, genRandomStr, randomLoop_eq, randomLoop_eq, Prng.srand, Prng.srand]
  dsimp only
  rw [List.map_inj_left]
  simp only [List.mem_range, zero_add, alphanum_inj]

/-! ### What the passwords are -/

variable {argv : List Bytes} {now : Secret → ℕ}

/-- What was drawn before does not matter for a password, as the generator is seeded again. -/
theorem Secret.eval_fst (a : Secret) (n : ℕ) (g g' : Prng) :
  (a.eval numbers argv n g).1 = (a.eval numbers argv n g').1
  := by
  rw [eval, eval]
  split
  case h_1 => rfl
  case h_2 => exact (genRandomStr_eq_iff n n 10 g g').mpr fun _ _ => rfl

/-- The passwords do not depend on the order in which they are made. -/
theorem secrets_apply (order : List Secret) (g : Prng) (pws : Secret → Bytes) (a : Secret) :
  secrets numbers argv now order g pws a =
    if a ∈ order then (a.eval numbers argv (now a) g).1 else pws a
  := by
  induction order generalizing g pws with
  | nil => rfl
  | cons b order ih =>
      rw [secrets]
      dsimp only
      rw [ih, a.eval_fst (now a) _ g]
      by_cases hrest : a ∈ order
      · rw [if_pos hrest, if_pos (List.mem_cons_of_mem b hrest)]
      · rw [if_neg hrest]
        by_cases hab : a = b
        · rw [hab, Function.update_self, if_pos List.mem_cons_self]
        · rw [Function.update_of_ne hab, if_neg (by simp [hab, hrest])]

/-- Without arguments for the passwords, no text is accepted as both of them exactly if one of the
first ten draws after the two seeds chooses another character.  So the passwords are the same
when they are made in one second. -/
theorem passwords_apart_iff [Platform] (numbers : UInt32 → ℕ → ℕ) (argv : List Bytes)
    (now : Secret → ℕ) (order : List Secret) (d : Disk) (clock : ℚ) (s : Server)
    (hargv : argv.length ≤ 2) (horder : order.Perm [.modpw, .adminpw, .devpw])
    (hs : main numbers argv now order d clock = some s) :
  (∀ pw, ¬ (s.isModpw pw = true ∧ s.isAdminpw pw = true)) ↔
    ∃ i < 10, numbers (UInt32.ofNat (now .modpw)) i % 64
      ≠ numbers (UInt32.ofNat (now .adminpw)) i % 64
  := by
  have hall : ∀ a, a ∈ order := by
    intro a
    rw [horder.mem_iff]
    cases a <;> decide
  have hnone : ∀ a : Secret, argv[a.index]? = none := by
    intro a
    apply List.getElem?_eq_none
    cases a <;> (rw [Secret.index]; omega)
  have hpw : ∀ a, secrets numbers argv now order ⟨1, 0⟩ (fun _ => []) a
      = (genRandomStr numbers (now a) 10 ⟨1, 0⟩).1 := by
    intro a
    rw [secrets_apply, if_pos (hall a), Secret.eval, hnone]
  have hnew : s.modpw = (genRandomStr numbers (now .modpw) 10 ⟨1, 0⟩).1 ∧
      s.adminpw = (genRandomStr numbers (now .adminpw) 10 ⟨1, 0⟩).1 := by
    rw [main] at hs
    split at hs
    case h_1 => cases hs
    case h_2 =>
      cases hs
      exact ⟨hpw .modpw, hpw .adminpw⟩
  have hdiffer : (∀ pw, ¬ (s.isModpw pw = true ∧ s.isAdminpw pw = true)) ↔
      s.modpw ≠ s.adminpw := by
    simp only [Server.isModpw, Server.isAdminpw, beq_iff_eq]
    constructor
    · exact fun h heq => h s.modpw ⟨rfl, heq⟩
    · rintro hne pw ⟨rfl, heq⟩
      exact hne heq
  rw [hdiffer, hnew.1, hnew.2, ne_eq, genRandomStr_eq_iff]
  simp only [not_forall, exists_prop, ne_eq]

/-- A generator whose first draw after a seed is the seed. -/
def countingNumbers (seed : UInt32) (draws : ℕ) : ℕ := seed.toNat + draws

/-- All passwords are made in the same second. -/
theorem not_passwords_apart :
  ¬ ∀ [Platform] (numbers : UInt32 → ℕ → ℕ) (argv : List Bytes) (now : Secret → ℕ)
      (order : List Secret) (d : Disk) (clock : ℚ) (s : Server), argv.length ≤ 2 →
    order.Perm [.modpw, .adminpw, .devpw] → main numbers argv now order d clock = some s →
    ∀ pw, ¬ (s.isModpw pw = true ∧ s.isAdminpw pw = true)
  := by
  intro h
  let _ := Platform.quiet
  have hs : (main countingNumbers [ofString "owop"] (fun _ => 1600000000)
      [.modpw, .adminpw, .devpw] (Disk.empty fun _ => false) 0).any (fun s =>
        s.isModpw s.modpw && s.isAdminpw s.modpw) = true := by
    decide +kernel
  obtain ⟨s, hs, hboth⟩ := (Option.any_eq_true _ _).mp hs
  rw [Bool.and_eq_true] at hboth
  exact h countingNumbers [ofString "owop"] (fun _ => 1600000000) [.modpw, .adminpw, .devpw]
    (Disk.empty fun _ => false) 0 s (by decide) (List.Perm.refl _) hs s.modpw hboth

/-- The moderator password is made one second before the administrator password. -/
theorem passwords_apart_iff_later :
  let _ := Platform.quiet
  ∃ s, main countingNumbers [ofString "owop"] (fun a => 1600000000 + a.index)
      [.modpw, .adminpw, .devpw] (Disk.empty fun _ => false) 0 = some s ∧
    ∀ pw, ¬ (s.isModpw pw = true ∧ s.isAdminpw pw = true)
  := by
  let _ := Platform.quiet
  have hsome : (main countingNumbers [ofString "owop"] (fun a => 1600000000 + a.index)
      [.modpw, .adminpw, .devpw] (Disk.empty fun _ => false) 0).isSome = true := by
    decide +kernel
  obtain ⟨s, hs⟩ := Option.isSome_iff_exists.mp hsome
  use s, hs
  apply (passwords_apart_iff countingNumbers [ofString "owop"] (fun a => 1600000000 + a.index)
    [.modpw, .adminpw, .devpw] (Disk.empty fun _ => false) 0 s (by decide) (List.Perm.refl _) hs).mpr
  exact ⟨0, by decide, by decide +kernel⟩

end Owop
