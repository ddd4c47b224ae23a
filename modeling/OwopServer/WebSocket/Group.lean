import OwopServer.Library.Links
import OwopServer.Library.Runs

/-!
# The sockets of a group

A `Group` keeps its sockets in a doubly linked list, and `forEach` goes through it while the socket
that it visits may be taken out.  What is done with all sockets is done once with each socket that
is open, and with no other.
-/

namespace Owop

namespace WebSocket

/-- The list of sockets of `Group`, with the fields `next` and `prev` of the `SocketData` of each
socket, and `iterators`, the top one first. -/
structure Group where
  next : ℕ → Option ℕ
  prev : ℕ → Option ℕ
  webSocketHead : Option ℕ
  iterators : List (Option ℕ)

/-- `iterators.top() = iterator` -/
def setTop (iterator : Option ℕ) : List (Option ℕ) → List (Option ℕ)
  | [] => []
  | _ :: iterators => iterator :: iterators

namespace Group

/-- A group without sockets, before any socket is made. -/
def new : Group := ⟨fun _ => none, fun _ => none, none, []⟩

/-- `Group::addWebSocket` -/
def addWebSocket (g : Group) (webSocket : ℕ) : Group :=
  match g.webSocketHead with
  | some head => { g with
      prev := Function.update g.prev head (some webSocket)
      next := Function.update g.next webSocket (some head)
      webSocketHead := some webSocket }
  | none => { g with webSocketHead := some webSocket }

/-- `Group::removeWebSocket` -/
def removeWebSocket (g : Group) (webSocket : ℕ) : Group :=
  let g := { g with iterators := setTop (g.next webSocket) g.iterators }
  if g.prev webSocket = g.next webSocket then { g with webSocketHead := none }
  else
    let g :=
      match g.prev webSocket with
      | some before => { g with next := Function.update g.next before (g.next webSocket) }
      | none => { g with webSocketHead := g.next webSocket }
    match g.next webSocket with
    | some after => { g with prev := Function.update g.prev after (g.prev webSocket) }
    | none => g

/-- The loop of `Group::forEach`, for at most so many sockets, and the sockets that it visits. -/
def forEachLoop (cb : Group → ℕ → Group) : ℕ → Group → Option ℕ → Group × List ℕ
  | fuel + 1, g, some lastIterator =>
      let g := cb g lastIterator
      let top := g.iterators.headD none
      let (g, visited) :=
        if top = some lastIterator then
          forEachLoop cb fuel
            { g with iterators := setTop (g.next lastIterator) g.iterators } (g.next lastIterator)
        else forEachLoop cb fuel g top
      (g, lastIterator :: visited)
  | _, g, _ => (g, [])

/-- `Group::forEach` -/
def forEach (cb : Group → ℕ → Group) (fuel : ℕ) (g : Group) : Group × List ℕ :=
  let (g, visited) :=
    forEachLoop cb fuel { g with iterators := g.webSocketHead :: g.iterators } g.webSocketHead
  ({ g with iterators := g.iterators.tail }, visited)

/-- What `broadcast` (no socket is taken out), `terminate` and `close` (all are) and the timer of
the pings (those that have not answered are) do with the list at a socket. -/
def visit (closes : ℕ → Bool) (g : Group) (webSocket : ℕ) : Group :=
  if closes webSocket then g.removeWebSocket webSocket else g

/-! ### The list -/

/-- The sockets are those of the list, each once, and among the first `n`; the others have not been
made. -/
structure Sound (g : Group) (n : ℕ) (sockets : List ℕ) : Prop where
  nodup : sockets.Nodup
  chain : Links.Chain g.next g.prev none g.webSocketHead sockets
  lt : ∀ ws ∈ sockets, ws < n
  fresh : ∀ ws, n ≤ ws → g.next ws = none ∧ g.prev ws = none

variable {g : Group} {n ws fuel : ℕ} {sockets before rest : List ℕ} {closes : ℕ → Bool}

/-- At the start. -/
theorem sound_new :
  new.Sound 0 []
  := ⟨List.nodup_nil, rfl, fun _ h => absurd h List.not_mem_nil, fun _ _ => ⟨rfl, rfl⟩⟩

/-- A new socket is added. -/
theorem Sound.addWebSocket (h : g.Sound n sockets) :
  (g.addWebSocket n).Sound (n + 1) (n :: sockets)
  := by
  have hnew : n ∉ sockets := fun hmem => lt_irrefl n (h.lt n hmem)
  obtain ⟨hnext, hprev⟩ := h.fresh n (le_refl n)
  have hlt : ∀ ws ∈ n :: sockets, ws < n + 1 := by
    intro ws hws
    obtain rfl | hws := List.mem_cons.mp hws
    · exact Nat.lt_succ_self ws
    · exact Nat.lt_succ_of_lt (h.lt ws hws)
  rw [Group.addWebSocket]
  cases hhead : g.webSocketHead with
  | none =>
      dsimp only
      refine ⟨List.nodup_cons.mpr ⟨hnew, h.nodup⟩, ?_, hlt, fun ws hws => h.fresh ws (by omega)⟩
      have hchain := h.chain
      rw [hhead] at hchain
      exact hchain.push h.nodup hnew hprev hnext (fun _ _ => rfl) fun a => by simp
  | some head =>
      dsimp only
      have hchain := h.chain
      rw [hhead] at hchain
      have hmem : head ∈ sockets := List.mem_of_mem_head? hchain.cur_eq.symm
      refine ⟨List.nodup_cons.mpr ⟨hnew, h.nodup⟩, ?_, hlt, fun ws hws => ?_⟩
      · apply hchain.push h.nodup hnew hprev (Function.update_self _ _ _)
        · intro a ha
          have hne : a ≠ n := by
            rintro rfl
            exact hnew ha
          exact Function.update_of_ne hne _ _
        · intro a
          dsimp only
          rw [Function.update_apply]
          simp only [Option.some.injEq, eq_comm]
      · have hhead' := h.lt head hmem
        dsimp only
        rw [Function.update_of_ne (by omega), Function.update_of_ne (by omega)]
        exact h.fresh ws (by omega)

/-- The links after a socket was removed. -/
theorem removeWebSocket_eq (g : Group) (hne : ∀ a, g.prev ws = some a → g.next ws ≠ some a) :
  g.removeWebSocket ws = ⟨(Links.without g.next g.prev ws).1, (Links.without g.next g.prev ws).2,
    if g.prev ws = none then g.next ws else g.webSocketHead, setTop (g.next ws) g.iterators⟩
  := by
  have hupdate : ∀ (f : ℕ → Option ℕ) (a : ℕ) (b : Option ℕ),
      Function.update f a b = fun c => if some a = some c then b else f c := by
    intro f a b
    funext c
    rw [Function.update_apply]
    simp only [Option.some.injEq, eq_comm]
  rw [removeWebSocket, Links.without]
  dsimp only
  cases hprev : g.prev ws with
  | none =>
      cases hnext : g.next ws with
      | none => simp
      | some after => simp [hprev, hupdate]
  | some before =>
      cases hnext : g.next ws with
      | none => simp [hnext, hupdate]
      | some after =>
          have hba : some before ≠ some after := by
            intro heq
            exact hne before hprev (hnext.trans heq.symm)
          rw [if_neg hba]
          have hsame : Function.update g.next before (some after) ws = some after := by
            rw [Function.update_apply, hnext, ite_self]
          simp [hsame, hprev, hupdate]

/-- No socket is on both sides of another. -/
theorem Sound.prev_ne_next (h : g.Sound n sockets) (hws : ws ∈ sockets) (a : ℕ)
    (ha : g.prev ws = some a) :
  g.next ws ≠ some a
  := h.chain.prev_ne_next h.nodup (fun _ hb => absurd hb.symm (Option.some_ne_none _)) hws ha

/-- A socket is removed. -/
theorem Sound.removeWebSocket (h : g.Sound n sockets) (hws : ws ∈ sockets) :
  (g.removeWebSocket ws).Sound n (sockets.erase ws)
  := by
  have hchain := h.chain.take_out h.nodup (fun _ hb => absurd hb.symm (Option.some_ne_none _)) hws
  rw [removeWebSocket_eq g (h.prev_ne_next hws)]
  refine ⟨h.nodup.erase ws, ?_, fun a ha => h.lt a (List.mem_of_mem_erase ha), fun a ha => ?_⟩
  · have hhead : (if g.prev ws = none then g.next ws else g.webSocketHead)
        = if g.webSocketHead = some ws then g.next ws else g.webSocketHead := by
      obtain ⟨hfirst, hprev⟩ | ⟨a, -, hprev, -⟩ := h.chain.prev_cases hws
      · rw [if_pos hprev, if_pos hfirst]
      · have hfirst : g.webSocketHead ≠ some ws := by
          intro hfirst
          have hchain := h.chain
          rw [hfirst] at hchain
          rw [hchain.prev_head] at hprev
          cases hprev
        rw [if_neg hfirst, hprev, if_neg (Option.some_ne_none a)]
    rw [hhead]
    exact hchain
  · dsimp only [Links.without]
    obtain ⟨hnext, hprev⟩ := h.fresh a ha
    have hbefore : g.prev ws ≠ some a := by
      intro heq
      obtain ⟨-, hnone⟩ | ⟨b, hb, hprev', -⟩ := h.chain.prev_cases hws
      · rw [hnone] at heq
        cases heq
      · obtain rfl : b = a := Option.some.inj (hprev'.symm.trans heq)
        exact absurd (h.lt b hb) (not_lt.mpr ha)
    have hafter : g.next ws ≠ some a := fun heq =>
      absurd (h.lt a (h.chain.mem_of_next hws heq)) (not_lt.mpr ha)
    rw [if_neg hbefore, if_neg hafter]
    exact ⟨hnext, hprev⟩

/-! ### Visits -/

/-- The iterators are not part of the list. -/
theorem Sound.iterators (h : g.Sound n sockets) (iterators : List (Option ℕ)) :
  ({ g with iterators := iterators } : Group).Sound n sockets
  := ⟨h.nodup, h.chain, h.lt, h.fresh⟩

/-- From a socket on, the loop visits the rest of the list. -/
theorem forEachLoop_visits {iterators : List (Option ℕ)} (h : g.Sound n (before ++ rest))
    (htop : g.iterators = rest.head? :: iterators) (hfuel : rest.length ≤ fuel) :
  (forEachLoop (visit closes) fuel g rest.head?).2 = rest ∧
    (forEachLoop (visit closes) fuel g rest.head?).1.Sound n
      (before ++ rest.filter fun ws => !closes ws) ∧
    (forEachLoop (visit closes) fuel g rest.head?).1.iterators = none :: iterators
  := by
  induction rest generalizing g before fuel with
  | nil =>
      have hloop : forEachLoop (visit closes) fuel g none = (g, []) := by
        cases fuel with
        | zero => rfl
        | succ fuel => rfl
      rw [List.head?_nil, hloop]
      exact ⟨rfl, h, htop⟩
  | cons ws rest ih =>
      obtain ⟨fuel, rfl⟩ : ∃ k, fuel = k + 1 := ⟨fuel - 1, by rw [List.length_cons] at hfuel; omega⟩
      rw [List.length_cons] at hfuel
      have hnext : g.next ws = rest.head? := h.chain.next_append
      rw [List.head?_cons] at htop ⊢
      rw [forEachLoop, visit]
      dsimp only
      cases hcloses : closes ws with
      | false =>
          rw [if_neg Bool.false_ne_true, htop, List.headD_cons, if_pos rfl, setTop, hnext]
          rw [List.append_cons] at h
          obtain ⟨hvisited, hsound, htop'⟩ := ih (h.iterators (rest.head? :: iterators)) rfl
            (Nat.le_of_succ_le_succ hfuel)
          refine ⟨congrArg _ hvisited, ?_, htop'⟩
          rw [List.filter_cons_of_pos (by rw [hcloses]; rfl), List.append_cons]
          exact hsound
      | true =>
          have hmem : ws ∈ before ++ ws :: rest := List.mem_append_right _ List.mem_cons_self
          have hremoved := h.removeWebSocket hmem
          have htops : (g.removeWebSocket ws).iterators = rest.head? :: iterators := by
            rw [removeWebSocket_eq g (h.prev_ne_next hmem), htop, hnext]
            rfl
          have hnodup := List.nodup_append.mp h.nodup
          have hbefore : ws ∉ before := fun hws => hnodup.2.2 ws hws ws List.mem_cons_self rfl
          have hother : rest.head? ≠ some ws := by
            intro heq
            exact (List.nodup_cons.mp hnodup.2.1).1 (List.mem_of_mem_head? heq)
          rw [if_pos rfl, htops, List.headD_cons, if_neg hother]
          rw [List.erase_append_right _ hbefore, List.erase_cons_head] at hremoved
          obtain ⟨hvisited, hsound, htop'⟩ := ih hremoved htops (Nat.le_of_succ_le_succ hfuel)
          refine ⟨congrArg _ hvisited, ?_, htop'⟩
          rw [List.filter_cons_of_neg (by rw [hcloses]; exact Bool.false_ne_true)]
          exact hsound

/-- What is done with all sockets is done once with each, and those that it closes are gone. -/
theorem Sound.forEach (h : g.Sound n sockets) (closes : ℕ → Bool) (hfuel : sockets.length ≤ fuel) :
  (g.forEach (visit closes) fuel).2 = sockets ∧
    (g.forEach (visit closes) fuel).1.Sound n (sockets.filter fun ws => !closes ws)
  := by
  have hhead : g.webSocketHead = sockets.head? := h.chain.cur_eq
  have hpushed : ({ g with iterators := sockets.head? :: g.iterators } : Group).Sound n
      ([] ++ sockets) := h.iterators _
  obtain ⟨hvisited, hsound, -⟩ := @forEachLoop_visits _ _ fuel _ _ closes _ hpushed rfl hfuel
  rw [← hhead] at hvisited hsound
  exact ⟨hvisited, hsound.iterators _⟩

end Group

/-! ### Runs -/

/-- What happens to a group: a socket is made and added, a socket ends, or something is done with
all sockets that closes some of them. -/
inductive GroupEvent where
  | connect
  | disconnect (ws : ℕ)
  | forEach (closes : ℕ → Bool)

/-- The group, and the number of the next socket. -/
def GroupEvent.step (s : Group × ℕ) : GroupEvent → Group × ℕ
  | connect => (s.1.addWebSocket s.2, s.2 + 1)
  | disconnect ws => (s.1.removeWebSocket ws, s.2)
  | forEach closes => ((s.1.forEach (Group.visit closes) s.2).1, s.2)

/-- The open sockets, the last one first, and the number of the next socket. -/
def GroupEvent.sockets (s : List ℕ × ℕ) : GroupEvent → List ℕ × ℕ
  | connect => (s.2 :: s.1, s.2 + 1)
  | disconnect ws => (s.1.erase ws, s.2)
  | forEach closes => (s.1.filter fun ws => !closes ws, s.2)

/-- Only open sockets end. -/
def GroupEvent.Proper (s : List ℕ × ℕ) : GroupEvent → Prop
  | disconnect ws => ws ∈ s.1
  | _ => True

namespace Group

/-- No more sockets than were made. -/
theorem Sound.length_le {g : Group} {n : ℕ} {sockets : List ℕ} (h : g.Sound n sockets) :
  sockets.length ≤ n
  := by
  have hsub : sockets ⊆ List.range n := fun ws hws => List.mem_range.mpr (h.lt ws hws)
  have hle := (h.nodup.subperm hsub).length_le
  rwa [List.length_range] at hle

/-- Any event. -/
theorem Sound.step {s : Group × ℕ} {sockets : List ℕ} {e : GroupEvent} (h : s.1.Sound s.2 sockets)
    (hproper : e.Proper (sockets, s.2)) :
  (e.step s).1.Sound (e.step s).2 (e.sockets (sockets, s.2)).1 ∧
    (e.sockets (sockets, s.2)).2 = (e.step s).2
  := by
  cases e with
  | connect => exact ⟨h.addWebSocket, rfl⟩
  | disconnect ws => exact ⟨h.removeWebSocket hproper, rfl⟩
  | forEach closes => exact ⟨(h.forEach closes h.length_le).2, rfl⟩

/-- Any run. -/
theorem Sound.runs {s : Group × ℕ} {sockets : List ℕ} {events : List GroupEvent}
    (h : s.1.Sound s.2 sockets)
    (hproper : Runs.Along GroupEvent.sockets GroupEvent.Proper (sockets, s.2) events) :
  (Runs.run GroupEvent.step s events).1.Sound (Runs.run GroupEvent.step s events).2
    (Runs.run GroupEvent.sockets (sockets, s.2) events).1
  := by
  induction events generalizing s sockets with
  | nil => exact h
  | cons e events ih =>
      obtain ⟨hfirst, hrest⟩ := Runs.along_cons.mp hproper
      obtain ⟨hstep, hsame⟩ := h.step hfirst
      have hpair : e.sockets (sockets, s.2) = ((e.sockets (sockets, s.2)).1, (e.step s).2) :=
        Prod.ext rfl hsame
      rw [hpair] at hrest
      rw [Runs.run_cons, Runs.run_cons, hpair]
      exact ih hstep hrest

/-- In every run, what is done with all sockets of a group is done with each open socket once, the
last one first, and with no other, whichever of them it closes. -/
theorem forEach_runs {events : List GroupEvent}
    (hproper : Runs.Along GroupEvent.sockets GroupEvent.Proper ([], 0) events) (closes : ℕ → Bool)
    {fuel : ℕ} (hfuel : (Runs.run GroupEvent.sockets ([], 0) events).1.length ≤ fuel) :
  ((Runs.run GroupEvent.step (new, 0) events).1.forEach (visit closes) fuel).2
    = (Runs.run GroupEvent.sockets ([], 0) events).1
  := ((sound_new.runs hproper).forEach closes hfuel).1

/-- Of three sockets, the middle one ends. -/
theorem forEach_runs_three :
  ((Runs.run GroupEvent.step (new, 0) [.connect, .connect, .connect, .disconnect 1]).1.forEach
    (visit fun ws => ws == 2) 2).2 = [2, 0]
  := by
  apply forEach_runs
  · rw [Runs.along_cons, Runs.along_cons, Runs.along_cons, Runs.along_cons]
    exact ⟨trivial, trivial, trivial, (by decide : 1 ∈ [2, 1, 0]), Runs.along_nil⟩
  · decide

end Group

end WebSocket

end Owop
