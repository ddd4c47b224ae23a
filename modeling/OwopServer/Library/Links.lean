import Mathlib

/-!
# Doubly linked lists

Nodes that know the one before and the one after them.  From a node on, the links run through the
nodes of a list.  A node can be put before the first one, and any node can be taken out.
-/

namespace Links

variable {α : Type*} {next prev next' prev' : α → Option α} {before cur : Option α} {a w : α}
  {l : List α}

/-- From `cur` on, the nodes are those of the list; `before` is the one before them. -/
def Chain (next prev : α → Option α) : Option α → Option α → List α → Prop
  | _, cur, [] => cur = none
  | before, cur, a :: l => cur = some a ∧ prev a = before ∧ Chain next prev (some a) (next a) l

/-- Links of other nodes do not matter. -/
theorem Chain.congr (h : Chain next prev before cur l) (hnext : ∀ a ∈ l, next' a = next a)
    (hprev : ∀ a ∈ l, prev' a = prev a) :
  Chain next' prev' before cur l
  := by
  induction l generalizing before cur with
  | nil => exact h
  | cons a l ih =>
      obtain ⟨hcur, hbefore, hrest⟩ := h
      refine ⟨hcur, (hprev a List.mem_cons_self).trans hbefore, ?_⟩
      rw [hnext a List.mem_cons_self]
      exact ih hrest (fun b hb => hnext b (List.mem_cons_of_mem a hb))
        fun b hb => hprev b (List.mem_cons_of_mem a hb)

theorem Chain.cur_eq (h : Chain next prev before cur l) :
  cur = l.head?
  := by
  cases l with
  | nil => exact h
  | cons a l => exact h.1

theorem Chain.prev_head (h : Chain next prev before (some w) l) :
  prev w = before
  := by
  cases l with
  | nil => cases h
  | cons a l =>
      obtain ⟨hcur, hbefore, -⟩ := h
      rw [Option.some.inj hcur]
      exact hbefore

/-- After a node of the list comes another one, or none. -/
theorem Chain.mem_of_next (h : Chain next prev before cur l) (hw : w ∈ l) (ha : next w = some a) :
  a ∈ l
  := by
  induction l generalizing before cur with
  | nil => cases hw
  | cons b l ih =>
      obtain ⟨-, -, hrest⟩ := h
      obtain rfl | hw := List.mem_cons.mp hw
      · rw [hrest.cur_eq] at ha
        exact List.mem_cons_of_mem w (List.mem_of_mem_head? ha)
      · exact List.mem_cons_of_mem b (ih hrest hw)

/-- Before a node of the list comes another one, unless it is the first. -/
theorem Chain.prev_cases (h : Chain next prev before cur l) (hw : w ∈ l) :
  cur = some w ∧ prev w = before ∨ ∃ a ∈ l, prev w = some a ∧ next a = some w
  := by
  induction l generalizing before cur with
  | nil => cases hw
  | cons b l ih =>
      obtain ⟨hcur, hbefore, hrest⟩ := h
      obtain rfl | hw := List.mem_cons.mp hw
      · exact Or.inl ⟨hcur, hbefore⟩
      · right
        obtain ⟨hnext, hprev⟩ | ⟨a, ha, hprev, hnext⟩ := ih hrest hw
        · exact ⟨b, List.mem_cons_self, hprev, hnext⟩
        · exact ⟨a, List.mem_cons_of_mem b ha, hprev, hnext⟩

/-- No node has the same one before and after it. -/
theorem Chain.prev_ne_next (h : Chain next prev before cur l) (hnodup : l.Nodup)
    (hbefore : ∀ b, before = some b → b ∉ l) (hw : w ∈ l) (ha : prev w = some a) :
  next w ≠ some a
  := by
  induction l generalizing before cur with
  | nil => cases hw
  | cons b l ih =>
      obtain ⟨-, hprev, hrest⟩ := h
      obtain ⟨hb, hnodup⟩ := List.nodup_cons.mp hnodup
      obtain rfl | hw := List.mem_cons.mp hw
      · intro hnext
        rw [hrest.cur_eq] at hnext
        exact hbefore a (hprev.symm.trans ha)
          (List.mem_cons_of_mem w (List.mem_of_mem_head? hnext))
      · exact ih hrest hnodup (fun c hc => by rw [← Option.some.inj hc]; exact hb) hw

/-- After a node comes the first one of those behind it. -/
theorem Chain.next_append {before' : List α} (h : Chain next prev before cur (before' ++ w :: l)) :
  next w = l.head?
  := by
  induction before' generalizing before cur with
  | nil => exact h.2.2.cur_eq
  | cons a before' ih => exact ih h.2.2

variable [DecidableEq α]

/-- A node that is not in the list is put before it. -/
theorem Chain.push (h : Chain next prev none cur l) (hnodup : l.Nodup) (hw : w ∉ l)
    (hprev : prev w = none)
    (hnext : next' w = cur) (hsame : ∀ a ∈ l, next' a = next a)
    (hprev' : ∀ a, prev' a = if cur = some a then some w else prev a) :
  Chain next' prev' none (some w) (w :: l)
  := by
  have hcur := h.cur_eq
  refine ⟨rfl, ?_, ?_⟩
  · rw [hprev', if_neg, hprev]
    intro heq
    rw [hcur] at heq
    exact hw (List.mem_of_mem_head? heq)
  · rw [hnext]
    cases l with
    | nil => exact h
    | cons b l =>
        obtain ⟨hb, -, hrest⟩ := h
        refine ⟨hb, by rw [hprev', if_pos hb], ?_⟩
        rw [hsame b List.mem_cons_self]
        apply hrest.congr fun a ha => hsame a (List.mem_cons_of_mem b ha)
        intro a ha
        rw [hprev', if_neg]
        rw [hb]
        intro heq
        rw [Option.some.inj heq] at hnodup
        exact (List.nodup_cons.mp hnodup).1 ha

/-- The links after `w` was taken out. -/
def without (next prev : α → Option α) (w : α) : (α → Option α) × (α → Option α) :=
  (fun a => if prev w = some a then next w else next a,
    fun a => if next w = some a then prev w else prev a)

theorem without_next (next prev : α → Option α) (w a : α) :
  (without next prev w).1 a = if prev w = some a then next w else next a
  := rfl

theorem without_prev (next prev : α → Option α) (w a : α) :
  (without next prev w).2 a = if next w = some a then prev w else prev a
  := rfl

/-- The first node is taken out. -/
theorem Chain.take_first (h : Chain next prev before cur (w :: l)) (hnodup : (w :: l).Nodup)
    (hbefore : ∀ b, before = some b → b ∉ w :: l) :
  Chain (without next prev w).1 (without next prev w).2 before (next w) l
  := by
  obtain ⟨-, hprev, hrest⟩ := h
  have hnext : ∀ a ∈ l, (without next prev w).1 a = next a := by
    intro a ha
    rw [without_next, if_neg]
    intro heq
    exact hbefore a (hprev.symm.trans heq) (List.mem_cons_of_mem w ha)
  cases l with
  | nil => exact hrest
  | cons c l =>
      obtain ⟨hc, -, hrest⟩ := hrest
      have hcl : c ∉ l := (List.nodup_cons.mp (List.nodup_cons.mp hnodup).2).1
      refine ⟨hc, ?_, ?_⟩
      · rw [without_prev, if_pos hc]
        exact hprev
      · rw [hnext c List.mem_cons_self]
        apply hrest.congr (fun a ha => hnext a (List.mem_cons_of_mem c ha))
        intro a ha
        rw [without_prev, if_neg]
        rw [hc]
        intro heq
        rw [Option.some.inj heq] at hcl
        exact hcl ha

/-- The link of the first node, when another one is taken out. -/
theorem Chain.next_without {b : α} (h : Chain next prev (some b) (next b) l) (hb : b ∉ l)
    (hw : w ∈ l) :
  (without next prev w).1 b = if next b = some w then next w else next b
  := by
  rw [without_next]
  obtain ⟨hnext, hprev⟩ | ⟨a, ha, hprev, -⟩ := h.prev_cases hw
  · rw [if_pos hprev, if_pos hnext]
  · have hab : some a ≠ some b := by
      intro heq
      rw [Option.some.inj heq] at ha
      exact hb ha
    rw [hprev, if_neg hab, if_neg]
    intro hnext
    rw [hnext] at h
    exact hab (hprev.symm.trans h.prev_head)

/-- A node is taken out. -/
theorem Chain.take_out (h : Chain next prev before cur l) (hnodup : l.Nodup)
    (hbefore : ∀ b, before = some b → b ∉ l) (hw : w ∈ l) :
  Chain (without next prev w).1 (without next prev w).2 before
    (if cur = some w then next w else cur) (l.erase w)
  := by
  induction l generalizing before cur with
  | nil => cases hw
  | cons b l ih =>
      have hall := h
      obtain ⟨hcur, hprev, hrest⟩ := h
      obtain ⟨hb, hnodup'⟩ := List.nodup_cons.mp hnodup
      by_cases hbw : b = w
      · subst hbw
        rw [List.erase_cons_head, if_pos hcur]
        exact hall.take_first hnodup hbefore
      · have hwl : w ∈ l := (List.mem_cons.mp hw).resolve_left (Ne.symm hbw)
        have hcurw : cur ≠ some w := by
          rw [hcur]
          exact fun heq => hbw (Option.some.inj heq)
        have hbefore' : ∀ c, some b = some c → c ∉ l := by
          intro c hc
          rw [← Option.some.inj hc]
          exact hb
        rw [List.erase_cons_tail (by simpa using hbw), if_neg hcurw]
        refine ⟨hcur, ?_, ?_⟩
        · rw [without_prev, if_neg]
          · exact hprev
          · exact fun heq => hb (hrest.mem_of_next hwl heq)
        · rw [hrest.next_without hb hwl]
          exact ih hrest hnodup' hbefore' hwl

end Links
