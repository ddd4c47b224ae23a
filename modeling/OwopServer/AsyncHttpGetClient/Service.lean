import OwopServer.AsyncHttpGetClient

/-!
# What the client for requests is for

A mailbox takes requests, removes requests, and has one request after the other answered, each
operation at once.  In every interleaving of its threads the client does what a mailbox does, so
the requests are answered in the order in which they were put in the queue, each once.  No request is
left in the queue, however the threads are scheduled.
-/

namespace Owop

variable {κ : Type} {c c' c'' : AsyncHTTPGETClient κ}

/-! ### Mailboxes -/

/-- The requests that wait, the one that is being answered, and the replies. -/
structure Mailbox (κ : Type) where
  queue : List (Request κ)
  current : Option (Request κ)
  replies : List (Reply κ)

/-- What is done to a mailbox. -/
inductive Mail (κ : Type) where
  | queue (req : Request κ)
  | remove (url : Bytes)
  /-- The next request is to be answered. -/
  | take
  /-- The request is answered. -/
  | answer (pieces : List Bytes) (code : ℕ)

namespace Mail

/-- The request that is queued. -/
def asked : Mail κ → Option (Request κ)
  | queue req => some req
  | _ => none

/-- The address whose requests are removed. -/
def wiped : Mail κ → Option Bytes
  | remove url => some url
  | _ => none

end Mail

namespace Mailbox

/-- A mailbox without requests. -/
def empty : Mailbox κ := ⟨[], none, []⟩

/-- The mailbox after an operation. -/
def step (m : Mailbox κ) : Mail κ → Mailbox κ
  | .queue req => { m with queue := m.queue ++ [req] }
  | .remove url => { m with queue := m.queue.filter fun req => req.url ≠ url }
  | .take =>
      match m.current, m.queue with
      | none, req :: queue => { m with queue := queue, current := some req }
      | _, _ => m
  | .answer pieces code =>
      match m.current with
      | some req => { m with
          current := none
          replies := m.replies ++ [⟨req, req.target, code, pieces.flatten, pieces⟩] }
      | none => m

/-- The requests that were not removed: those answered, then the one that is being answered, then
those that wait. -/
def held (m : Mailbox κ) : List (Request κ) :=
  m.replies.map Reply.req ++ (m.current.toList ++ m.queue)

variable (m : Mailbox κ)

/-- No request is held that was not held or queued. -/
theorem held_step (mail : Mail κ) :
  (m.step mail).held.Sublist (m.held ++ mail.asked.toList)
  := by
  cases mail with
  | queue req =>
      rw [held, held, step, Mail.asked, Option.toList_some]
      simp only [List.append_assoc]
      exact List.Sublist.refl _
  | remove url =>
      show List.Sublist _ (m.held ++ [])
      rw [List.append_nil]
      exact (List.filter_sublist.append_left _).append_left _
  | take =>
      show List.Sublist _ (m.held ++ [])
      rw [List.append_nil, step]
      split
      case h_1 req queue hcurrent hqueue =>
        rw [held, held, hcurrent, hqueue]
        exact List.Sublist.refl _
      case h_2 => exact List.Sublist.refl _
  | answer pieces code =>
      show List.Sublist _ (m.held ++ [])
      rw [List.append_nil, step]
      split
      case h_1 req hcurrent =>
        rw [held, held, hcurrent, List.map_append, List.append_assoc]
        exact List.Sublist.refl _
      case h_2 => exact List.Sublist.refl _

/-- The requests for an address that is not removed all stay. -/
theorem filter_held_step {mail : Mail κ} {url : Bytes} (hurl : mail.wiped ≠ some url) :
  (m.step mail).held.filter (fun req => req.url = url)
    = (m.held ++ mail.asked.toList).filter fun req => req.url = url
  := by
  cases mail with
  | queue req =>
      rw [held, held, step, Mail.asked, Option.toList_some]
      simp only [List.append_assoc]
  | remove url' =>
      have hne : url' ≠ url := fun h => hurl (congrArg some h)
      have hkeep : (m.queue.filter fun req => req.url ≠ url').filter (fun req => req.url = url)
          = m.queue.filter fun req => req.url = url := by
        rw [List.filter_filter]
        apply List.filter_congr
        intro req _
        by_cases heq : req.url = url
        · rw [heq, decide_eq_true hne.symm]
          simp
        · simp [heq]
      show _ = (m.held ++ []).filter _
      rw [List.append_nil, held, held, step]
      simp only [List.filter_append, hkeep]
  | take =>
      show _ = (m.held ++ []).filter _
      rw [List.append_nil, step]
      split
      case h_1 req queue hcurrent hqueue =>
        rw [held, held, hcurrent, hqueue]
        rfl
      case h_2 => rfl
  | answer pieces code =>
      show _ = (m.held ++ []).filter _
      rw [List.append_nil, step]
      split
      case h_1 req hcurrent =>
        rw [held, held, hcurrent, List.map_append, List.append_assoc]
        rfl
      case h_2 => rfl

/-- Requests keep their order, and none is there twice. -/
theorem held_run (mails : List (Mail κ)) :
  (Runs.run step m mails).held.Sublist (m.held ++ mails.filterMap Mail.asked)
  := by
  induction mails generalizing m with
  | nil => rw [Runs.run_nil, List.filterMap_nil, List.append_nil]
  | cons mail mails ih =>
      rw [Runs.run_cons, Blocking.filterMap_cons_toList, ← List.append_assoc]
      exact (ih (m.step mail)).trans ((m.held_step mail).append_right _)

/-- Where those of an address are not removed, all of them are held, in order. -/
theorem filter_held_run {mails : List (Mail κ)} {url : Bytes}
    (hurl : url ∉ mails.filterMap Mail.wiped) :
  (Runs.run step m mails).held.filter (fun req => req.url = url)
    = (m.held ++ mails.filterMap Mail.asked).filter fun req => req.url = url
  := by
  induction mails generalizing m with
  | nil => rw [Runs.run_nil, List.filterMap_nil, List.append_nil]
  | cons mail mails ih =>
      rw [Blocking.filterMap_cons_toList, List.mem_append, not_or, Option.mem_toList] at hurl
      rw [Runs.run_cons, ih _ hurl.2, Blocking.filterMap_cons_toList, ← List.append_assoc,
        List.filter_append, m.filter_held_step hurl.1, ← List.filter_append]

/-- Each reply has the data that came for it, and its address. -/
theorem replies_run (mails : List (Mail κ)) (r : Reply κ)
    (hr : r ∈ (Runs.run step m mails).replies) :
  r ∈ m.replies ∨ r.url = r.req.target ∧ r.buffer = r.pieces.flatten
  := by
  induction mails generalizing m with
  | nil => exact Or.inl hr
  | cons mail mails ih =>
      obtain hold | hnew := ih (m.step mail) hr
      · cases mail with
        | queue req => exact Or.inl hold
        | remove url => exact Or.inl hold
        | take =>
            rw [step] at hold
            split at hold
            · exact Or.inl hold
            · exact Or.inl hold
        | answer pieces code =>
            rw [step] at hold
            split at hold
            case h_1 req hcurrent =>
              obtain hold | hlast := List.mem_append.mp hold
              · exact Or.inl hold
              · rw [List.mem_singleton.mp hlast]
                exact Or.inr ⟨rfl, rfl⟩
            case h_2 => exact Or.inl hold
      · exact Or.inr hnew

end Mailbox

/-! ### The client is a mailbox -/

/-- The request that is being answered. -/
def Processor.current : Processor κ → Option (Request κ)
  | perform req => some req
  | _ => none

/-- The request that a call has put in the queue. -/
def Caller.asked : Caller κ → Option (Request κ)
  | notify req | unlock req | queued req => some req
  | _ => none

/-- The request that a call puts in the queue in its next step. -/
def Caller.pushed : Caller κ → Option (Request κ)
  | push req => some req
  | _ => none

/-- The address whose requests a call has removed. -/
def Caller.wiped : Caller κ → Option Bytes
  | removed url => some url
  | _ => none

namespace AsyncHTTPGETClient

/-- The mailbox that a client is. -/
def mailbox (c : AsyncHTTPGETClient κ) : Mailbox κ :=
  ⟨c.requestQueue, c.requestThread.current, c.replies⟩

/-- The request that is put in the queue in a step. -/
def pushed (c : AsyncHTTPGETClient κ) : ClientEvent κ → Option (Request κ)
  | .call i => c.callers[i]?.bind Caller.pushed
  | _ => none

/-- The requests that are put in the queue in a run, in the order of these steps. -/
def pushes (c : AsyncHTTPGETClient κ) (events : List (ClientEvent κ)) : List (Request κ) :=
  Blocking.outputs AsyncHTTPGETClient.step pushed c events

/-- The client has become what its mailbox became by some operations, which are those of the
calls. -/
structure Mails (c c' : AsyncHTTPGETClient κ) (mails : List (Mail κ)) : Prop where
  mailbox : c'.mailbox = Runs.run Mailbox.step c.mailbox mails
  asked : (c'.callers.filterMap Caller.asked).Perm
    (c.callers.filterMap Caller.asked ++ mails.filterMap Mail.asked)
  wiped : (c'.callers.filterMap Caller.wiped).Perm
    (c.callers.filterMap Caller.wiped ++ mails.filterMap Mail.wiped)

/-- Something happens that the mailbox does not see. -/
theorem Mails.silent (hmailbox : c'.mailbox = c.mailbox) (hcallers : c'.callers = c.callers) :
  Mails c c' []
  := by
  refine ⟨hmailbox, ?_, ?_⟩
  · rw [hcallers, List.filterMap_nil, List.append_nil]
  · rw [hcallers, List.filterMap_nil, List.append_nil]

/-- One thing after another. -/
theorem Mails.trans {mails mails' : List (Mail κ)} (h : Mails c c' mails)
    (h' : Mails c' c'' mails') :
  Mails c c'' (mails ++ mails')
  := by
  refine ⟨?_, ?_, ?_⟩
  · rw [h'.mailbox, h.mailbox, Runs.run_append]
  · rw [List.filterMap_append, ← List.append_assoc]
    exact h'.asked.trans (h.asked.append_right _)
  · rw [List.filterMap_append, ← List.append_assoc]
    exact h'.wiped.trans (h.wiped.append_right _)

/-- A call goes on from `a` to `b`, by some operations. -/
theorem Mails.set {i : ℕ} {a b : Caller κ} {mails : List (Mail κ)} (hi : c.callers[i]? = some a)
    (hcallers : c'.callers = c.callers.set i b)
    (hmailbox : c'.mailbox = Runs.run Mailbox.step c.mailbox mails)
    (hasked : b.asked.toList = a.asked.toList ++ mails.filterMap Mail.asked)
    (hwiped : b.wiped.toList = a.wiped.toList ++ mails.filterMap Mail.wiped) :
  Mails c c' mails
  := by
  constructor
  case mailbox => exact hmailbox
  case asked =>
    rw [hcallers]
    exact Blocking.filterMap_set_more Caller.asked hi hasked
  case wiped =>
    rw [hcallers]
    exact Blocking.filterMap_set_more Caller.wiped hi hwiped

/-- Notifying the thread leaves its request. -/
theorem current_notifyAll (t : Processor κ) :
  (notifyAll t).current = t.current
  := by
  cases t with
  | _ => rfl

/-- A call goes on. -/
theorem Mails.goOn {i : ℕ} {a : Caller κ} (hi : c.callers[i]? = some a)
    (hstep : c.goOn i a = some c') :
  ∃ mails, Mails c c' mails ∧ mails.filterMap Mail.asked = a.pushed.toList
  := by
  cases a with
  | queueRequest req | lockQueue req =>
      obtain ⟨-, rfl⟩ := of_free hstep
      exact ⟨[], Mails.set hi rfl rfl rfl rfl, rfl⟩
  | push req =>
      obtain rfl := Option.some.inj hstep
      exact ⟨[.queue req], Mails.set hi rfl rfl rfl rfl, rfl⟩
  | notify req =>
      obtain rfl := Option.some.inj hstep
      refine ⟨[], Mails.set hi rfl ?_ rfl rfl, rfl⟩
      rw [AsyncHTTPGETClient.mailbox, current_notifyAll]
      rfl
  | unlock req =>
      obtain rfl := Option.some.inj hstep
      exact ⟨[], Mails.set hi rfl rfl rfl rfl, rfl⟩
  | queued req => cases hstep
  | removeRequests url =>
      obtain ⟨-, rfl⟩ := of_free hstep
      exact ⟨[], Mails.set hi rfl rfl rfl rfl, rfl⟩
  | remove url =>
      obtain rfl := Option.some.inj hstep
      refine ⟨[.remove url], Mails.set hi rfl ?_ rfl rfl, rfl⟩
      rw [AsyncHTTPGETClient.mailbox, sift_eq]
      rfl
  | removed url => cases hstep

/-- The pieces of an answer are joined. -/
theorem foldl_writer (buffer : Bytes) (pieces : List Bytes) :
  pieces.foldl writer buffer = buffer ++ pieces.flatten
  := by
  induction pieces generalizing buffer with
  | nil => rw [List.foldl_nil, List.flatten_nil, List.append_nil]
  | cons data pieces ih => rw [List.foldl_cons, ih, writer, List.flatten_cons, List.append_assoc]

/-- The thread goes on. -/
theorem Mails.processRequests (h : c.Sound) {pieces : List Bytes} {code : ℕ}
    (hstep : c.processRequests pieces code = some c') :
  ∃ mails, Mails c c' mails ∧ mails.filterMap Mail.asked = []
  := by
  have hone : ∀ {mail : Mail κ}, c'.mailbox = c.mailbox.step mail → mail.asked = none →
      mail.wiped = none → c'.callers = c.callers → Mails c c' [mail] := by
    intro mail hmailbox hasked hwiped hcallers
    refine ⟨hmailbox, ?_, ?_⟩
    · rw [Blocking.filterMap_cons_toList, hasked, hcallers]
      exact List.Perm.of_eq (List.append_nil _).symm
    · rw [Blocking.filterMap_cons_toList, hwiped, hcallers]
      exact List.Perm.of_eq (List.append_nil _).symm
  cases turn_of_processRequests hstep with
  | take hthread hqueue =>
      refine ⟨[.take], hone ?_ rfl rfl rfl, rfl⟩
      rw [AsyncHTTPGETClient.mailbox, AsyncHTTPGETClient.mailbox, Mailbox.step, hthread, hqueue]
      rfl
  | perform hthread =>
      refine ⟨[.answer pieces code], hone ?_ rfl rfl rfl, rfl⟩
      rw [AsyncHTTPGETClient.mailbox, AsyncHTTPGETClient.mailbox, Mailbox.step, hthread,
        foldl_writer, h.buffer]
      rfl
  | test hthread =>
      refine ⟨[], Mails.silent ?_ rfl, rfl⟩
      rw [AsyncHTTPGETClient.mailbox, AsyncHTTPGETClient.mailbox, hthread]
      dsimp only
      split
      · rfl
      · rfl
  | lockWait hthread | lockQueue hthread | empty hthread | relock hthread | sleep hthread
  | woken hthread | release hthread =>
      refine ⟨[], Mails.silent ?_ rfl, rfl⟩
      rw [AsyncHTTPGETClient.mailbox, AsyncHTTPGETClient.mailbox, hthread]
      rfl

/-- A new call has done nothing. -/
theorem Mails.spawn {a : Caller κ} (hasked : a.asked = none) (hwiped : a.wiped = none) :
  Mails c { c with callers := c.callers ++ [a] } []
  := by
  refine ⟨rfl, ?_, ?_⟩
  · rw [List.filterMap_append, List.filterMap_cons_none hasked]
    exact List.Perm.refl _
  · rw [List.filterMap_append, List.filterMap_cons_none hwiped]
    exact List.Perm.refl _

/-- A step is some operations, in which the request is queued that the step puts in the queue. -/
theorem Mails.step (h : c.Sound) {e : ClientEvent κ} (hstep : c.step e = some c') :
  ∃ mails, Mails c c' mails ∧ mails.filterMap Mail.asked = (c.pushed e).toList
  := by
  cases e with
  | queueRequest req | removeRequests url =>
      obtain ⟨-, ⟨⟩⟩ := Option.ite_none_right_eq_some.mp hstep
      exact ⟨[], Mails.spawn rfl rfl, rfl⟩
  | call i =>
      obtain ⟨a, hi, hgo⟩ := Option.bind_eq_some_iff.mp hstep
      rw [pushed, hi, Option.bind_some]
      exact Mails.goOn hi hgo
  | process pieces code => exact Mails.processRequests h hstep
  | spurious =>
      rw [AsyncHTTPGETClient.step] at hstep
      split at hstep
      case h_1 hthread =>
        obtain rfl := Option.some.inj hstep
        refine ⟨[], Mails.silent ?_ rfl, rfl⟩
        rw [AsyncHTTPGETClient.mailbox, AsyncHTTPGETClient.mailbox, hthread]
        rfl
      case h_2 => cases hstep
  | destroy =>
      obtain ⟨-, ⟨⟩⟩ := Option.ite_none_right_eq_some.mp hstep
      exact ⟨[], Mails.silent rfl rfl, rfl⟩
  | destructor =>
      rw [AsyncHTTPGETClient.step] at hstep
      split at hstep
      case h_1 =>
        obtain rfl := Option.some.inj hstep
        refine ⟨[], Mails.silent ?_ rfl, rfl⟩
        rw [AsyncHTTPGETClient.mailbox, current_notifyAll]
        rfl
      case h_2 =>
        obtain rfl := Option.some.inj hstep
        exact ⟨[], Mails.silent rfl rfl, rfl⟩
      case h_3 => cases hstep

/-- The client is sound in every run. -/
theorem Sound.run {events : List (ClientEvent κ)} (h : c.Sound)
    (hrun : Blocking.run AsyncHTTPGETClient.step c events = some c') :
  c'.Sound
  := Blocking.run_keep (fun hsound hstep => Sound.step hsound hstep) h hrun

/-- In every run the mailbox of the client becomes what some operations make of it, and in these the
requests are queued in the order in which the run puts them in the queue. -/
theorem run_mails {events : List (ClientEvent κ)} (h : c.Sound)
    (hrun : Blocking.run AsyncHTTPGETClient.step c events = some c') :
  ∃ mails, Mails c c' mails ∧ mails.filterMap Mail.asked = c.pushes events
  := by
  induction events generalizing c with
  | nil =>
      obtain rfl := Option.some.inj hrun
      exact ⟨[], Mails.silent rfl rfl, rfl⟩
  | cons e events ih =>
      obtain ⟨t, hstep, hrest⟩ := Blocking.run_cons.mp hrun
      obtain ⟨first, hfirst, hpushed⟩ := Mails.step h hstep
      obtain ⟨later, hlater, hpushes⟩ := ih (h.step hstep) hrest
      refine ⟨first ++ later, hfirst.trans hlater, ?_⟩
      rw [List.filterMap_append, hpushed, hpushes, pushes, pushes, Blocking.outputs_cons events hstep]

/-- Whatever the threads do in whatever order: the requests that were answered, then the one that
is being answered and those that wait are the requests of the calls, in the order in which the calls
put them in the queue and none twice; only requests for addresses whose requests were removed are
missing.  Each callback got the data that came for its request. -/
theorem run_fifo {events : List (ClientEvent κ)}
    (h : Blocking.run AsyncHTTPGETClient.step new events = some c) :
  (new.pushes events).Perm (c.callers.filterMap Caller.asked) ∧
    c.mailbox.held.Sublist (new.pushes events) ∧
    (∀ url, url ∉ c.callers.filterMap Caller.wiped →
      c.mailbox.held.filter (fun req => req.url = url)
        = (new.pushes events).filter fun req => req.url = url) ∧
    ∀ r ∈ c.replies, r.url = r.req.target ∧ r.buffer = r.pieces.flatten
  := by
  obtain ⟨mails, ⟨hmailbox, hasked, hwiped⟩, hpushes⟩ := run_mails sound_new h
  rw [← hpushes]
  refine ⟨hasked.symm, ?_, ?_, ?_⟩
  · rw [hmailbox]
    exact Mailbox.held_run _ mails
  · intro url hurl
    rw [hwiped.mem_iff] at hurl
    rw [hmailbox]
    exact Mailbox.filter_held_run _ hurl
  · intro r hr
    have hreplies : r ∈ c.mailbox.replies := hr
    rw [hmailbox] at hreplies
    obtain hnone | hreply := Mailbox.replies_run _ mails r hreplies
    · cases hnone
    · exact hreply

/-- Two requests for one address, the second of which is queued while the first is answered. -/
theorem run_fifo_two :
  ∃ c : AsyncHTTPGETClient ℕ, c.callers.filterMap Caller.asked = [⟨[1], [2], 1⟩, ⟨[1], [3], 2⟩] ∧
    c.mailbox.held.filter (fun req => req.url = [1]) = [⟨[1], [2], 1⟩, ⟨[1], [3], 2⟩]
  := by
  let events : List (ClientEvent ℕ) :=
    [.queueRequest ⟨[1], [2], 1⟩, .call 0, .call 0, .call 0, .call 0, .call 0,
      .queueRequest ⟨[1], [3], 2⟩, .process [] 0, .process [] 0, .process [] 0, .process [] 0,
      .process [[4], [5]] 0, .process [] 0, .process [] 0, .process [] 0, .call 1, .call 1, .call 1,
      .call 1]
  have hrun : ∃ c, Blocking.run AsyncHTTPGETClient.step (new : AsyncHTTPGETClient ℕ) events = some c ∧
      c.callers.filterMap Caller.asked = [⟨[1], [2], 1⟩, ⟨[1], [3], 2⟩] ∧
      c.callers.filterMap Caller.wiped = [] :=
    ⟨_, rfl, rfl, rfl⟩
  have hpushes : (new : AsyncHTTPGETClient ℕ).pushes events
      = [⟨[1], [2], 1⟩, ⟨[1], [3], 2⟩] := rfl
  obtain ⟨c, hrun, hasked, hwiped⟩ := hrun
  obtain ⟨-, -, hall, -⟩ := run_fifo hrun
  rw [hwiped, hpushes] at hall
  use c, hasked
  rw [hall [1] List.not_mem_nil]
  rfl

end AsyncHTTPGETClient

/-! ### No request is left -/

/-- The number of steps that a call still has to do, or makes the thread do. -/
def Caller.work : Caller κ → ℕ
  | queueRequest _ => 15
  | lockQueue _ => 14
  | push _ => 13
  | notify _ => 9
  | unlock _ => 1
  | queued _ => 0
  | removeRequests _ => 2
  | remove _ => 1
  | removed _ => 0

/-- A call that is over has no lock and nothing to tell. -/
theorem Caller.of_returned {a : Caller κ} (h : a.returned = true) :
  a.waits = 0 ∧ a.queues = 0 ∧ a.news = 0
  := by
  cases a with
  | queued req | removed url => exact ⟨rfl, rfl, rfl⟩
  | _ => cases h

/-- The number of steps that the thread still has to do, if it finds no request. -/
def Processor.work : Processor κ → ℕ
  | test => 5
  | lockWait => 4
  | lockQueue => 3
  | look => 2
  | perform _ => 4
  | relock => 3
  | sleep => 1
  | waiting => 0
  | woken => 7
  | release => 6
  | ended => 0

/-- The number of steps that the destructor still has to do, or makes the thread do. -/
def Destructor.work : Destructor → ℕ
  | alive => 0
  | notify => 9
  | join => 1
  | done => 0

/-- A step of a thread that does not come from outside. -/
def ClientEvent.goesOn : ClientEvent κ → Bool
  | call _ | process _ _ | destructor => true
  | _ => false

namespace AsyncHTTPGETClient

/-- The number of steps that are still to be done, at most. -/
def work (c : AsyncHTTPGETClient κ) : ℕ :=
  3 * c.requestQueue.length + c.requestThread.work + (c.callers.map Caller.work).sum
    + c.destructor.work

/-- No thread can go on. -/
def Blocked (c : AsyncHTTPGETClient κ) : Prop := ∀ e : ClientEvent κ, e.goesOn = true → c.step e = none

/-- A thread that is notified has at most seven more steps to do. -/
theorem work_notifyAll (t : Processor κ) :
  (notifyAll t).work ≤ t.work + 7
  := by
  cases t with
  | waiting => exact le_refl 7
  | _ => exact Nat.le_add_right _ _

/-- A step of a call leaves less to do. -/
theorem work_goOn {i : ℕ} {a : Caller κ} (hi : c.callers[i]? = some a)
    (hstep : c.goOn i a = some c') :
  c'.work < c.work
  := by
  have hset := fun b => Blocking.sum_map_set Caller.work hi b
  cases a with
  | queueRequest req =>
      obtain ⟨-, rfl⟩ := of_free hstep
      have hsum := hset (.lockQueue req)
      simp only [work, Caller.work] at hsum ⊢
      omega
  | lockQueue req =>
      obtain ⟨-, rfl⟩ := of_free hstep
      have hsum := hset (.push req)
      simp only [work, Caller.work] at hsum ⊢
      omega
  | push req =>
      obtain rfl := Option.some.inj hstep
      have hsum := hset (.notify req)
      simp only [work, Caller.work, List.length_append, List.length_singleton] at hsum ⊢
      omega
  | notify req =>
      obtain rfl := Option.some.inj hstep
      have hsum := hset (.unlock req)
      have hthread := work_notifyAll c.requestThread
      simp only [work, Caller.work] at hsum ⊢
      omega
  | unlock req =>
      obtain rfl := Option.some.inj hstep
      have hsum := hset (.queued req)
      simp only [work, Caller.work] at hsum ⊢
      omega
  | queued req => cases hstep
  | removeRequests url =>
      obtain ⟨-, rfl⟩ := of_free hstep
      have hsum := hset (.remove url)
      simp only [work, Caller.work] at hsum ⊢
      omega
  | remove url =>
      obtain rfl := Option.some.inj hstep
      have hsum := hset (.removed url)
      have hless : (sift url c.requestQueue.length c.requestQueue).length
          ≤ c.requestQueue.length := by
        rw [sift_eq]
        exact List.length_filter_le _ _
      simp only [work, Caller.work] at hsum ⊢
      omega
  | removed url => cases hstep

/-- A step of the thread leaves less to do. -/
theorem work_processRequests {pieces : List Bytes} {code : ℕ}
    (hstep : c.processRequests pieces code = some c') :
  c'.work < c.work
  := by
  cases turn_of_processRequests hstep with
  | test hthread =>
      simp only [work, hthread]
      split <;> simp only [Processor.work] <;> omega
  | take hthread hqueue =>
      simp only [work, hthread, hqueue, Processor.work, List.length_cons]
      omega
  | lockWait hthread | lockQueue hthread | empty hthread | perform hthread | relock hthread
  | sleep hthread | woken hthread | release hthread =>
      simp only [work, hthread, Processor.work]
      omega

/-- Every step of a thread leaves less to be done. -/
theorem work_step {e : ClientEvent κ} (he : e.goesOn = true) (hstep : c.step e = some c') :
  c'.work < c.work
  := by
  cases e with
  | queueRequest req | removeRequests url | spurious | destroy => cases he
  | call i =>
      obtain ⟨a, hi, hgo⟩ := Option.bind_eq_some_iff.mp hstep
      exact work_goOn hi hgo
  | process pieces code => exact work_processRequests hstep
  | destructor =>
      rw [step] at hstep
      split at hstep
      case h_1 hdestructor =>
        obtain rfl := Option.some.inj hstep
        have hthread := work_notifyAll c.requestThread
        simp only [work, hdestructor, Destructor.work]
        omega
      case h_2 hdestructor hthread =>
        obtain rfl := Option.some.inj hstep
        simp only [work, hdestructor, Destructor.work]
        omega
      case h_3 => cases hstep

/-- A call that cannot go on is over or waits for a lock. -/
theorem of_blocked_call {i : ℕ} {a : Caller κ} (hnone : c.goOn i a = none) :
  a.returned = true ∨ a.queues = 0 ∧ c.queueLock = true ∨
    a.waits = 0 ∧ a.queues = 0 ∧ c.waitLock = true
  := by
  cases a with
  | queued req | removed url => exact Or.inl rfl
  | push req | notify req | unlock req | remove url => cases hnone
  | lockQueue req | removeRequests url =>
      rw [goOn, ite_eq_left_iff] at hnone
      refine Or.inr (Or.inl ⟨rfl, by_contra fun hfree => ?_⟩)
      cases hnone hfree
  | queueRequest req =>
      rw [goOn, ite_eq_left_iff] at hnone
      refine Or.inr (Or.inr ⟨rfl, rfl, by_contra fun hfree => ?_⟩)
      cases hnone hfree

/-- If the thread cannot go on, it waits, or waits for a lock, or has ended. -/
theorem of_blocked_thread (hnone : c.processRequests [] 0 = none) :
  c.requestThread = .waiting ∨ c.requestThread = .ended ∨
    c.requestThread.queues = 0 ∧ c.queueLock = true ∨
    c.requestThread.waits = 0 ∧ c.requestThread.queues = 0 ∧ c.waitLock = true
  := by
  rw [processRequests] at hnone
  cases hthread : c.requestThread with
  | waiting => exact Or.inl rfl
  | ended => exact Or.inr (Or.inl rfl)
  | test | perform | sleep | release =>
      rw [hthread] at hnone
      cases hnone
  | look =>
      rw [hthread] at hnone
      dsimp only at hnone
      split at hnone <;> cases hnone
  | lockQueue | relock =>
      rw [hthread] at hnone
      dsimp only at hnone
      rw [ite_eq_left_iff] at hnone
      refine Or.inr (Or.inr (Or.inl ⟨rfl, by_contra fun hfree => ?_⟩))
      cases hnone hfree
  | lockWait | woken =>
      rw [hthread] at hnone
      dsimp only at hnone
      rw [ite_eq_left_iff] at hnone
      refine Or.inr (Or.inr (Or.inr ⟨rfl, rfl, by_contra fun hfree => ?_⟩))
      cases hnone hfree

/-- Calls none of which counts do not count. -/
theorem sum_eq_zero {f : Caller κ → ℕ}
    (h : ∀ (i : ℕ) (a : Caller κ), c.callers[i]? = some a → f a = 0) :
  (c.callers.map f).sum = 0
  := by
  apply List.sum_eq_zero
  intro n hn
  obtain ⟨a, ha, rfl⟩ := List.mem_map.mp hn
  obtain ⟨i, hi⟩ := List.getElem?_of_mem ha
  exact h i a hi

/-- When no thread can go on, all calls are over, and the thread waits with nothing to do or has
ended. -/
theorem Sound.settled (h : c.Sound) (hblocked : c.Blocked) :
  c.callers.all Caller.returned = true ∧
    (c.requestThread = .waiting ∧ c.requestQueue = [] ∨ c.requestThread = .ended)
  := by
  have hcall : ∀ {i : ℕ} {a : Caller κ}, c.callers[i]? = some a → c.goOn i a = none := by
    intro i a hi
    have hnone := hblocked (.call i) rfl
    rw [AsyncHTTPGETClient.step, hi] at hnone
    exact hnone
  have hthread := of_blocked_thread (hblocked (.process [] 0) rfl)
  -- a holder of `queueLock` can always go on
  have hqueue : c.queueLock = false := by
    have hcalls : (c.callers.map Caller.queues).sum = 0 := by
      apply sum_eq_zero
      intro i a hi
      obtain hreturned | ⟨hzero, -⟩ | ⟨-, hzero, -⟩ := of_blocked_call (hcall hi)
      · exact (Caller.of_returned hreturned).2.1
      · exact hzero
      · exact hzero
    have hzero : c.requestThread.queues = 0 := by
      obtain heq | heq | ⟨hzero, -⟩ | ⟨-, hzero, -⟩ := hthread
      · rw [heq]; rfl
      · rw [heq]; rfl
      · exact hzero
      · exact hzero
    have hqueues := h.queues
    rw [hcalls, hzero] at hqueues
    exact Bool.toNat_eq_zero.mp hqueues.symm
  have hfree : c.queueLock ≠ true := by
    rw [hqueue]
    exact Bool.false_ne_true
  -- so a holder of `waitLock` can go on too
  have hwait : c.waitLock = false := by
    have hcalls : (c.callers.map Caller.waits).sum = 0 := by
      apply sum_eq_zero
      intro i a hi
      obtain hreturned | ⟨-, hlock⟩ | ⟨hzero, -⟩ := of_blocked_call (hcall hi)
      · exact (Caller.of_returned hreturned).1
      · exact absurd hlock hfree
      · exact hzero
    have hzero : c.requestThread.waits = 0 := by
      obtain heq | heq | ⟨-, hlock⟩ | ⟨hzero, -⟩ := hthread
      · rw [heq]; rfl
      · rw [heq]; rfl
      · exact absurd hlock hfree
      · exact hzero
    have hwaits := h.waits
    rw [hcalls, hzero] at hwaits
    exact Bool.toNat_eq_zero.mp hwaits.symm
  have hfree' : c.waitLock ≠ true := by
    rw [hwait]
    exact Bool.false_ne_true
  have hreturned : ∀ (i : ℕ) (a : Caller κ), c.callers[i]? = some a → a.returned = true := by
    intro i a hi
    obtain hreturned | ⟨-, hlock⟩ | ⟨-, -, hlock⟩ := of_blocked_call (hcall hi)
    · exact hreturned
    · exact absurd hlock hfree
    · exact absurd hlock hfree'
  constructor
  · rw [List.all_eq_true]
    intro a ha
    obtain ⟨i, hi⟩ := List.getElem?_of_mem ha
    exact hreturned i a hi
  · obtain heq | heq | ⟨-, hlock⟩ | ⟨-, -, hlock⟩ := hthread
    · refine Or.inl ⟨heq, by_contra fun hne => ?_⟩
      have hnews := h.told (by rw [heq]; rfl) hne
      rw [sum_eq_zero fun i a hi => (Caller.of_returned (hreturned i a hi)).2.2] at hnews
      exact Nat.lt_irrefl 0 hnews
    · exact Or.inr heq
    · exact absurd hlock hfree
    · exact absurd hlock hfree'

/-! ### The destructor -/

/-- A step of a call does not end the thread. -/
theorem goOn_same {i : ℕ} {a : Caller κ} (hstep : c.goOn i a = some c') :
  c'.destructor = c.destructor ∧ c'.terminateThread = c.terminateThread ∧ a.returned = false ∧
    (c'.requestThread = .ended → c.requestThread = .ended)
  := by
  cases a with
  | queueRequest req | lockQueue req | removeRequests url =>
      obtain ⟨-, rfl⟩ := of_free hstep
      exact ⟨rfl, rfl, rfl, id⟩
  | push req | unlock req | remove url =>
      obtain rfl := Option.some.inj hstep
      exact ⟨rfl, rfl, rfl, id⟩
  | notify req =>
      obtain rfl := Option.some.inj hstep
      refine ⟨rfl, rfl, rfl, fun hended => ?_⟩
      cases hthread : c.requestThread with
      | ended => rfl
      | _ => rw [hthread] at hended; cases hended
  | queued req | removed url => cases hstep

/-- A step of the thread leaves the calls. -/
theorem turn_same {pieces : List Bytes} {code : ℕ} (hturn : Turn c pieces code c') :
  c'.destructor = c.destructor ∧ c'.terminateThread = c.terminateThread ∧ c'.callers = c.callers
  := by
  cases hturn with
  | _ => exact ⟨rfl, rfl, rfl⟩

/-- The thread is to end once the destructor was called, and no call is on then. -/
structure Ending (c : AsyncHTTPGETClient κ) : Prop where
  terminate : c.terminateThread = true ↔ c.destructor ≠ .alive
  ended : c.requestThread = .ended → c.terminateThread = true
  calls : c.destructor ≠ .alive → c.callers.all Caller.returned = true

/-- At the start. -/
theorem ending_new :
  (new : AsyncHTTPGETClient κ).Ending
  := ⟨⟨nofun, fun h => absurd rfl h⟩, nofun, fun h => absurd rfl h⟩

/-- Nothing is called once the destructor was. -/
theorem Ending.goOn_none (h : c.Ending) (hdestructor : c.destructor ≠ .alive) (i : ℕ) :
  c.step (.call i) = none
  := by
  cases hstep : c.step (.call i) with
  | none => rfl
  | some c' =>
      obtain ⟨a, hi, hgo⟩ := Option.bind_eq_some_iff.mp hstep
      have hover := List.all_eq_true.mp (h.calls hdestructor) a (List.mem_of_getElem? hi)
      rw [(goOn_same hgo).2.2.1] at hover
      cases hover

/-- Any step. -/
theorem Ending.step (h : c.Ending) {e : ClientEvent κ} (hstep : c.step e = some c') :
  c'.Ending
  := by
  cases e with
  | queueRequest req | removeRequests url =>
      obtain ⟨halive, ⟨⟩⟩ := Option.ite_none_right_eq_some.mp hstep
      exact ⟨h.terminate, h.ended, fun hdestructor => absurd halive hdestructor⟩
  | call i =>
      by_cases halive : c.destructor = .alive
      · obtain ⟨a, hi, hgo⟩ := Option.bind_eq_some_iff.mp hstep
        obtain ⟨hdestructor, hterminate, -, hended⟩ := goOn_same hgo
        refine ⟨?_, ?_, ?_⟩
        · rw [hdestructor, hterminate]
          exact h.terminate
        · rw [hterminate]
          exact fun h' => h.ended (hended h')
        · rw [hdestructor]
          exact fun h' => absurd halive h'
      · rw [h.goOn_none halive i] at hstep
        cases hstep
  | process pieces code =>
      have hturn := turn_of_processRequests hstep
      obtain ⟨hdestructor, hterminate, hcallers⟩ := turn_same hturn
      refine ⟨?_, ?_, ?_⟩
      · rw [hdestructor, hterminate]
        exact h.terminate
      · rw [hterminate]
        cases hturn with
        | test =>
            intro hended
            dsimp only at hended
            split at hended
            case isTrue hset => exact hset
            case isFalse => cases hended
        | _ =>
            intro hended
            cases hended
      · rw [hdestructor, hcallers]
        exact h.calls
  | spurious =>
      rw [AsyncHTTPGETClient.step] at hstep
      split at hstep
      case h_1 =>
        obtain rfl := Option.some.inj hstep
        refine ⟨h.terminate, fun hended => ?_, h.calls⟩
        cases hended
      case h_2 => cases hstep
  | destroy =>
      obtain ⟨⟨-, hover⟩, ⟨⟩⟩ := Option.ite_none_right_eq_some.mp hstep
      exact ⟨⟨fun _ => Destructor.noConfusion, fun _ => rfl⟩, fun _ => rfl, fun _ => hover⟩
  | destructor =>
      have hcalled : c.destructor ≠ .alive → c'.destructor ≠ .alive →
          c'.terminateThread = c.terminateThread → c'.callers = c.callers → c'.Ending := by
        intro hdestructor hdestructor' hterminate hcallers
        have hset := h.terminate.mpr hdestructor
        refine ⟨⟨fun _ => hdestructor', fun _ => hterminate.trans hset⟩,
          fun _ => hterminate.trans hset, fun _ => ?_⟩
        rw [hcallers]
        exact h.calls hdestructor
      rw [AsyncHTTPGETClient.step] at hstep
      split at hstep
      case h_1 hdestructor =>
        obtain rfl := Option.some.inj hstep
        exact hcalled (by rw [hdestructor]; exact Destructor.noConfusion) Destructor.noConfusion
          rfl rfl
      case h_2 hdestructor _ =>
        obtain rfl := Option.some.inj hstep
        exact hcalled (by rw [hdestructor]; exact Destructor.noConfusion) Destructor.noConfusion
          rfl rfl
      case h_3 => cases hstep

/-- Any run. -/
theorem run_ending {events : List (ClientEvent κ)}
    (h : Blocking.run AsyncHTTPGETClient.step new events = some c) :
  c.Ending
  := Blocking.run_keep (fun h hstep => Ending.step h hstep) ending_new h

/-- However the threads go on from wherever a run has brought them, they stop after a bounded number
of steps; and when none can go on, all calls are over, and every request that was not removed was
answered. -/
theorem run_settles {events later : List (ClientEvent κ)}
    (h : Blocking.run AsyncHTTPGETClient.step new events = some c) (halive : c.destructor = .alive)
    (hlater : ∀ e ∈ later, e.goesOn = true)
    (h' : Blocking.run AsyncHTTPGETClient.step c later = some c') :
  later.length ≤ c.work ∧ (c'.Blocked → c'.callers.all Caller.returned = true ∧
    c'.requestThread = .waiting ∧ c'.mailbox.held = c'.replies.map Reply.req)
  := by
  have hrun : Blocking.run AsyncHTTPGETClient.step new (events ++ later) = some c' :=
    Blocking.run_append.mpr ⟨c, h, h'⟩
  have halive' : c'.destructor = .alive := by
    apply Blocking.run_keep_of (P := fun c => c.destructor = .alive) ?_ halive hlater h'
    intro t e t' ht he hstep
    cases e with
    | queueRequest req | removeRequests url | spurious | destroy => cases he
    | call i =>
        obtain ⟨a, hi, hgo⟩ := Option.bind_eq_some_iff.mp hstep
        exact (goOn_same hgo).1.trans ht
    | process pieces code => exact (turn_same (turn_of_processRequests hstep)).1.trans ht
    | destructor =>
        rw [step, ht] at hstep
        cases hstep
  constructor
  · have hless := Blocking.length_le_of_run (fun he hstep => work_step he hstep) hlater h'
    omega
  · intro hblocked
    have hsound := Sound.run sound_new hrun
    have hending := run_ending hrun
    obtain ⟨hover, ⟨hthread, hqueue⟩ | hthread⟩ := hsound.settled hblocked
    · refine ⟨hover, hthread, ?_⟩
      rw [Mailbox.held, mailbox, hqueue, hthread]
      exact List.append_nil _
    · exact absurd halive' (hending.terminate.mp (hending.ended hthread))

/-- A request that is queued while the thread waits. -/
theorem run_settles_one :
  ∃ c : AsyncHTTPGETClient Unit, Blocking.run AsyncHTTPGETClient.step new
      ([.process [] 0, .process [] 0, .process [] 0, .process [] 0, .process [] 0,
        .queueRequest ⟨[1], [], ()⟩] ++ List.replicate 5 (.call 0)
        ++ List.replicate 10 (.process [[2]] 0)) = some c ∧
    c.requestThread = .waiting ∧ c.mailbox.held = c.replies.map Reply.req
  := by
  have hblocked : ∀ e : ClientEvent Unit, e.goesOn = true → AsyncHTTPGETClient.step
      ⟨[], false, false, false, [], .waiting, [.queued ⟨[1], [], ()⟩], .alive,
        [⟨⟨[1], [], ()⟩, [1], 0, [2], [[2]]⟩]⟩ e = none := by
    intro e he
    cases e with
    | call i =>
        cases i with
        | zero => rfl
        | succ i => rfl
    | process pieces code | destructor => rfl
    | queueRequest req | removeRequests url | spurious | destroy => cases he
  refine ⟨_, rfl, ?_⟩
  have hsettles := @run_settles Unit
    ⟨[], false, false, false, [], .waiting, [.queueRequest ⟨[1], [], ()⟩], .alive, []⟩
    ⟨[], false, false, false, [], .waiting, [.queued ⟨[1], [], ()⟩], .alive,
      [⟨⟨[1], [], ()⟩, [1], 0, [2], [[2]]⟩]⟩
    [.process [] 0, .process [] 0, .process [] 0, .process [] 0, .process [] 0,
      .queueRequest ⟨[1], [], ()⟩]
    (List.replicate 5 (.call 0) ++ List.replicate 10 (.process [[2]] 0)) rfl rfl
    (by simp [ClientEvent.goesOn]) rfl
  exact (hsettles.2 hblocked).2

end AsyncHTTPGETClient

/-- The thread has found that it is not to end, and does not wait yet. -/
def Processor.late : Processor κ → Bool
  | lockWait | lockQueue | look | perform _ | relock | sleep => true
  | _ => false

namespace AsyncHTTPGETClient

/-- The destructor has notified the thread, which was late and will wait, or which will end. -/
structure Notified (c : AsyncHTTPGETClient κ) (late : Bool) : Prop where
  ending : c.Ending
  destructor : c.destructor = .join ∨ late = false ∧ c.destructor = .done
  thread : if late then c.requestThread.late = true ∨ c.requestThread = .waiting
    else c.requestThread.late = false ∧ c.requestThread ≠ .waiting

/-- Any step of calls and thread. -/
theorem Notified.step {late : Bool} (h : c.Notified late) {e : ClientEvent κ}
    (he : e.goesOn = true) (hstep : c.step e = some c') :
  c'.Notified late
  := by
  have hending := h.ending.step hstep
  have hcalled : c.destructor ≠ .alive := by
    obtain heq | ⟨-, heq⟩ := h.destructor
    · rw [heq]; exact Destructor.noConfusion
    · rw [heq]; exact Destructor.noConfusion
  cases e with
  | queueRequest req | removeRequests url | spurious | destroy => cases he
  | call i =>
      rw [h.ending.goOn_none hcalled i] at hstep
      cases hstep
  | process pieces code =>
      have hturn := turn_of_processRequests hstep
      refine ⟨hending, (turn_same hturn).1 ▸ h.destructor, ?_⟩
      have hthread := h.thread
      cases hturn with
      | test heq =>
          rw [heq] at hthread
          rw [h.ending.terminate.mpr hcalled]
          cases late with
          | true => obtain hlate | hwaiting := hthread <;> contradiction
          | false => exact ⟨rfl, nofun⟩
      | lockWait heq | lockQueue heq | take heq | empty heq | perform heq | relock heq =>
          rw [heq] at hthread
          cases late with
          | true => exact Or.inl rfl
          | false => exact absurd hthread.1 Bool.noConfusion
      | sleep heq =>
          rw [heq] at hthread
          cases late with
          | true => exact Or.inr rfl
          | false => exact absurd hthread.1 Bool.noConfusion
      | woken heq | release heq =>
          rw [heq] at hthread
          cases late with
          | true => obtain hlate | hwaiting := hthread <;> contradiction
          | false => exact ⟨rfl, nofun⟩
  | destructor =>
      rw [AsyncHTTPGETClient.step] at hstep
      split at hstep
      case h_1 heq =>
        have hdestructor := h.destructor
        rw [heq] at hdestructor
        obtain hjoin | ⟨-, hdone⟩ := hdestructor
        · cases hjoin
        · cases hdone
      case h_2 _ hended =>
        obtain rfl := Option.some.inj hstep
        have hthread := h.thread
        cases late with
        | true =>
            rw [hended] at hthread
            obtain hlate | hwaiting := hthread
            · cases hlate
            · cases hwaiting
        | false => exact ⟨hending, Or.inr ⟨rfl, rfl⟩, hthread⟩
      case h_3 => cases hstep

/-- When the destructor has notified the thread and all threads go on as far as they can, the
destructor returns if and only if the thread was not on the way from the test of `terminateThread`
to `cv.wait` when it was notified. -/
theorem run_joins {events later : List (ClientEvent κ)}
    (h : Blocking.run AsyncHTTPGETClient.step new events = some c)
    (hnotify : c.destructor = .notify) (hlater : ∀ e ∈ later, e.goesOn = true)
    (h' : Blocking.run AsyncHTTPGETClient.step c (.destructor :: later) = some c') :
  later.length < c.work ∧
    (c'.Blocked → (c'.destructor = .done ↔ c.requestThread.late = false))
  := by
  have hrun : Blocking.run AsyncHTTPGETClient.step new (events ++ .destructor :: later) = some c' :=
    Blocking.run_append.mpr ⟨c, h, h'⟩
  have hsound := Sound.run sound_new hrun
  have hless := Blocking.length_le_of_run (fun he hstep => work_step he hstep)
    (List.forall_mem_cons.mpr ⟨rfl, hlater⟩) h'
  rw [List.length_cons] at hless
  refine ⟨by omega, fun hblocked => ?_⟩
  obtain ⟨d, hstep, hrest⟩ := Blocking.run_cons.mp h'
  have hending := (run_ending h).step hstep
  have hnotified : d.Notified c.requestThread.late := by
    rw [step, hnotify] at hstep
    obtain rfl := Option.some.inj hstep
    refine ⟨hending, Or.inl rfl, ?_⟩
    dsimp only
    cases hthread : c.requestThread with
    | lockWait | lockQueue | look | perform | relock | sleep => exact Or.inl rfl
    | test | waiting | woken | release | ended =>
        refine ⟨rfl, fun hwaiting => ?_⟩
        cases hwaiting
  have hlast := Blocking.run_keep_of (fun ht he hstep => Notified.step ht he hstep) hnotified
    hlater hrest
  have hthread := hlast.thread
  obtain ⟨-, ⟨hwaiting, -⟩ | hended⟩ := hsound.settled hblocked
  · cases hlate : c.requestThread.late with
    | true =>
        rw [hlate] at hlast
        obtain hjoin | ⟨hfalse, -⟩ := hlast.destructor
        · rw [hjoin]
          exact ⟨fun hdone => Destructor.noConfusion hdone, fun hlate => Bool.noConfusion hlate⟩
        · cases hfalse
    | false =>
        rw [hlate] at hthread
        exact absurd hwaiting hthread.2
  · cases hlate : c.requestThread.late with
    | true =>
        rw [hlate, hended] at hthread
        obtain hfalse | hfalse := hthread
        · cases hfalse
        · cases hfalse
    | false =>
        obtain hjoin | ⟨-, hdone⟩ := hlast.destructor
        · have hnone := hblocked .destructor rfl
          rw [step, hjoin, hended] at hnone
          cases hnone
        · exact ⟨fun _ => rfl, fun _ => hdone⟩

/-- The destructor is called when the thread has just found that it is not to end. -/
theorem run_joins_hangs :
  ∃ c : AsyncHTTPGETClient Unit, Blocking.run AsyncHTTPGETClient.step new
      [.process [] 0, .destroy, .destructor, .process [] 0, .process [] 0, .process [] 0,
        .process [] 0] = some c ∧ c.Blocked ∧ c.destructor ≠ .done
  := by
  have hblocked : ∀ e : ClientEvent Unit, e.goesOn = true →
      AsyncHTTPGETClient.step ⟨[], false, false, true, [], .waiting, [], .join, []⟩ e = none := by
    intro e he
    cases e with
    | call i | process pieces code | destructor => rfl
    | queueRequest req | removeRequests url | spurious | destroy => cases he
  refine ⟨_, rfl, hblocked, fun hdone => ?_⟩
  have hjoins := @run_joins Unit ⟨[], false, false, true, [], .lockWait, [], .notify, []⟩
    ⟨[], false, false, true, [], .waiting, [], .join, []⟩ [.process [] 0, .destroy]
    [.process [] 0, .process [] 0, .process [] 0, .process [] 0] rfl rfl
    (by simp [ClientEvent.goesOn]) rfl
  exact Bool.noConfusion ((hjoins.2 hblocked).mp hdone)

end AsyncHTTPGETClient

end Owop
