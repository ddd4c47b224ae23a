import OwopServer.Library.Blocking
import OwopServer.Library.Bytes
import OwopServer.Library.Runs

/-!
# The client for requests

The class `AsyncHTTPGETClient` of `AsyncHTTPGETClient.cpp`.  Any threads may queue requests and
remove them, while one more thread takes them from the queue, has them answered and calls their
callbacks.  Every lock and unlock is a step here, and the steps of the threads may fall in any
order.
-/

namespace Owop

open Bytes (ofString)

variable {κ : Type}

/-- `AsyncHTTPGETClient::Request` -/
structure Request (κ : Type) where
  url : Bytes
  postFields : Bytes
  callback : κ

/-- The address that is asked for. -/
def Request.target (req : Request κ) : Bytes :=
  if req.postFields.length > 0 then req.url ++ (ofString "?" ++ req.postFields) else req.url

/-- What a callback is called with, and the pieces of data that came for it. -/
structure Reply (κ : Type) where
  req : Request κ
  url : Bytes
  code : ℕ
  buffer : Bytes
  pieces : List Bytes

/-- Where the thread of `processRequests` is. -/
inductive Processor (κ : Type) where
  /-- At the test of `terminateThread`. -/
  | test
  /-- About to lock `waitLock`. -/
  | lockWait
  /-- About to lock `queueLock`, before the loop over the queue. -/
  | lockQueue
  /-- At the test of the loop over the queue, with both locks. -/
  | look
  /-- Having a request answered. -/
  | perform (req : Request κ)
  /-- About to lock `queueLock` again, at the end of the loop. -/
  | relock
  /-- About to wait. -/
  | sleep
  /-- In `cv.wait`, without the lock. -/
  | waiting
  /-- In `cv.wait`, about to lock `waitLock` again. -/
  | woken
  /-- At the end of the body, where the lock is given back. -/
  | release
  | ended

/-- A call of `queueRequest` or `removeRequests`, and where it is. -/
inductive Caller (κ : Type) where
  | queueRequest (req : Request κ)
  | lockQueue (req : Request κ)
  | push (req : Request κ)
  | notify (req : Request κ)
  | unlock (req : Request κ)
  | queued (req : Request κ)
  | removeRequests (url : Bytes)
  | remove (url : Bytes)
  | removed (url : Bytes)

/-- Whether a call is over. -/
def Caller.returned : Caller κ → Bool
  | .queued _ => true
  | .removed _ => true
  | _ => false

/-- Where the destructor is, if it was called. -/
inductive Destructor where
  | alive
  | notify
  | join
  | done
  deriving DecidableEq

/-- `AsyncHTTPGETClient`, with its thread and the calls that were made.  The last component is
history: the callbacks that were called. -/
structure AsyncHTTPGETClient (κ : Type) where
  requestQueue : List (Request κ)
  queueLock : Bool
  waitLock : Bool
  terminateThread : Bool
  buffer : Bytes
  requestThread : Processor κ
  callers : List (Caller κ)
  destructor : Destructor
  replies : List (Reply κ)

/-- The steps of the threads, and what may come from outside. -/
inductive ClientEvent (κ : Type) where
  /-- A thread calls `queueRequest`. -/
  | queueRequest (req : Request κ)
  /-- A thread calls `removeRequests`. -/
  | removeRequests (url : Bytes)
  /-- A call goes on. -/
  | call (i : ℕ)
  /-- The thread of `processRequests` goes on; a request would be answered by these pieces of
  data and this code. -/
  | process (pieces : List Bytes) (code : ℕ)
  /-- `cv.wait` ends without being notified. -/
  | spurious
  /-- The destructor is called. -/
  | destroy
  /-- The destructor goes on. -/
  | destructor

namespace AsyncHTTPGETClient

/-- The constructor `AsyncHTTPGETClient::AsyncHTTPGETClient`, with its thread. -/
def new : AsyncHTTPGETClient κ := ⟨[], false, false, false, [], .test, [], .alive, []⟩

/-- `writer` -/
def writer (writerData data : Bytes) : Bytes := writerData ++ data

/-- `cv.notify_all` -/
def notifyAll : Processor κ → Processor κ
  | .waiting => .woken
  | t => t

/-- The loop of `removeRequests`. -/
def sift (url : Bytes) : ℕ → List (Request κ) → List (Request κ)
  | 0, queue => queue
  | _ + 1, [] => []
  | queueSize + 1, req :: queue =>
      sift url queueSize (if req.url ≠ url then queue ++ [req] else queue)

/-- The next step of a call, unless it is blocked or over. -/
def goOn (c : AsyncHTTPGETClient κ) (i : ℕ) : Caller κ → Option (AsyncHTTPGETClient κ)
  | .queueRequest req =>
      if c.waitLock then none
      else some { c with waitLock := true, callers := c.callers.set i (.lockQueue req) }
  | .lockQueue req =>
      if c.queueLock then none
      else some { c with queueLock := true, callers := c.callers.set i (.push req) }
  | .push req =>
      some { c with
        requestQueue := c.requestQueue ++ [req]
        queueLock := false
        callers := c.callers.set i (.notify req) }
  | .notify req =>
      some { c with
        requestThread := notifyAll c.requestThread
        callers := c.callers.set i (.unlock req) }
  | .unlock req =>
      some { c with waitLock := false, callers := c.callers.set i (.queued req) }
  | .queued _ => none
  | .removeRequests url =>
      if c.queueLock then none
      else some { c with queueLock := true, callers := c.callers.set i (.remove url) }
  | .remove url =>
      some { c with
        requestQueue := sift url c.requestQueue.length c.requestQueue
        queueLock := false
        callers := c.callers.set i (.removed url) }
  | .removed _ => none

/-- The next step of `processRequests`, unless it is blocked or over. -/
def processRequests (c : AsyncHTTPGETClient κ) (pieces : List Bytes) (code : ℕ) :
    Option (AsyncHTTPGETClient κ) :=
  match c.requestThread with
  | .test => some { c with requestThread := if c.terminateThread then .ended else .lockWait }
  | .lockWait =>
      if c.waitLock then none else some { c with waitLock := true, requestThread := .lockQueue }
  | .lockQueue =>
      if c.queueLock then none else some { c with queueLock := true, requestThread := .look }
  | .look =>
      match c.requestQueue with
      | req :: queue =>
          some { c with requestQueue := queue, queueLock := false, requestThread := .perform req }
      | [] => some { c with queueLock := false, requestThread := .sleep }
  | .perform req =>
      some { c with
        buffer := []
        requestThread := .relock
        replies := c.replies ++ [⟨req, req.target, code, pieces.foldl writer c.buffer, pieces⟩] }
  | .relock =>
      if c.queueLock then none else some { c with queueLock := true, requestThread := .look }
  | .sleep => some { c with waitLock := false, requestThread := .waiting }
  | .waiting => none
  | .woken =>
      if c.waitLock then none else some { c with waitLock := true, requestThread := .release }
  | .release => some { c with waitLock := false, requestThread := .test }
  | .ended => none

/-- The client after a step, unless the step is blocked.  Nobody calls a client whose destructor
was called. -/
def step (c : AsyncHTTPGETClient κ) : ClientEvent κ → Option (AsyncHTTPGETClient κ)
  | .queueRequest req =>
      if c.destructor = .alive then some { c with callers := c.callers ++ [.queueRequest req] }
      else none
  | .removeRequests url =>
      if c.destructor = .alive then some { c with callers := c.callers ++ [.removeRequests url] }
      else none
  | .call i => c.callers[i]?.bind (c.goOn i)
  | .process pieces code => c.processRequests pieces code
  | .spurious =>
      match c.requestThread with
      | .waiting => some { c with requestThread := .woken }
      | _ => none
  | .destroy =>
      if c.destructor = .alive ∧ c.callers.all Caller.returned then
        some { c with terminateThread := true, destructor := .notify }
      else none
  | .destructor =>
      match c.destructor, c.requestThread with
      | .notify, t => some { c with requestThread := notifyAll t, destructor := .join }
      | .join, .ended => some { c with destructor := .done }
      | _, _ => none

/-! ### Steps -/

variable {c c' : AsyncHTTPGETClient κ}

/-- What a step of `processRequests` can do. -/
inductive Turn (c : AsyncHTTPGETClient κ) (pieces : List Bytes) (code : ℕ) :
    AsyncHTTPGETClient κ → Prop
  | test (hthread : c.requestThread = .test) :
      Turn c pieces code { c with
        requestThread := if c.terminateThread then .ended else .lockWait }
  | lockWait (hthread : c.requestThread = .lockWait) (hfree : c.waitLock = false) :
      Turn c pieces code { c with waitLock := true, requestThread := .lockQueue }
  | lockQueue (hthread : c.requestThread = .lockQueue) (hfree : c.queueLock = false) :
      Turn c pieces code { c with queueLock := true, requestThread := .look }
  | take {req : Request κ} {queue : List (Request κ)} (hthread : c.requestThread = .look)
      (hqueue : c.requestQueue = req :: queue) :
      Turn c pieces code { c with
        requestQueue := queue, queueLock := false, requestThread := .perform req }
  | empty (hthread : c.requestThread = .look) (hqueue : c.requestQueue = []) :
      Turn c pieces code { c with queueLock := false, requestThread := .sleep }
  | perform {req : Request κ} (hthread : c.requestThread = .perform req) :
      Turn c pieces code { c with
        buffer := []
        requestThread := .relock
        replies := c.replies ++ [⟨req, req.target, code, pieces.foldl writer c.buffer, pieces⟩] }
  | relock (hthread : c.requestThread = .relock) (hfree : c.queueLock = false) :
      Turn c pieces code { c with queueLock := true, requestThread := .look }
  | sleep (hthread : c.requestThread = .sleep) :
      Turn c pieces code { c with waitLock := false, requestThread := .waiting }
  | woken (hthread : c.requestThread = .woken) (hfree : c.waitLock = false) :
      Turn c pieces code { c with waitLock := true, requestThread := .release }
  | release (hthread : c.requestThread = .release) :
      Turn c pieces code { c with waitLock := false, requestThread := .test }

/-- What needs a lock has it. -/
theorem of_free {b : Bool} {o : AsyncHTTPGETClient κ}
    (h : (if b then none else some o) = some c') :
  b = false ∧ o = c'
  := by
  obtain ⟨hfree, heq⟩ := Option.ite_none_left_eq_some.mp h
  exact ⟨Bool.eq_false_of_not_eq_true hfree, Option.some.inj heq⟩

/-- A step of the thread is a turn. -/
theorem turn_of_processRequests {pieces : List Bytes} {code : ℕ}
    (hstep : c.processRequests pieces code = some c') :
  Turn c pieces code c'
  := by
  rw [processRequests] at hstep
  split at hstep
  case h_1 hthread => exact Option.some.inj hstep ▸ .test hthread
  case h_2 hthread =>
    obtain ⟨hfree, rfl⟩ := of_free hstep
    exact .lockWait hthread hfree
  case h_3 hthread =>
    obtain ⟨hfree, rfl⟩ := of_free hstep
    exact .lockQueue hthread hfree
  case h_4 hthread =>
    split at hstep
    case h_1 req queue hqueue => exact Option.some.inj hstep ▸ .take hthread hqueue
    case h_2 hqueue => exact Option.some.inj hstep ▸ .empty hthread hqueue
  case h_5 req hthread => exact Option.some.inj hstep ▸ .perform hthread
  case h_6 hthread =>
    obtain ⟨hfree, rfl⟩ := of_free hstep
    exact .relock hthread hfree
  case h_7 hthread => exact Option.some.inj hstep ▸ .sleep hthread
  case h_8 => cases hstep
  case h_9 hthread =>
    obtain ⟨hfree, rfl⟩ := of_free hstep
    exact .woken hthread hfree
  case h_10 hthread => exact Option.some.inj hstep ▸ .release hthread
  case h_11 => cases hstep

/-- Of the queue the requests for other addresses are left, and come last. -/
theorem sift_append (url : Bytes) (queue rest : List (Request κ)) :
  sift url queue.length (queue ++ rest) = rest ++ queue.filter fun req => req.url ≠ url
  := by
  induction queue generalizing rest with
  | nil => rw [List.nil_append, List.filter_nil, List.append_nil]; rfl
  | cons req queue ih =>
      rw [List.length_cons, List.cons_append, sift]
      by_cases hurl : req.url ≠ url
      · rw [if_pos hurl, List.append_assoc, ih, List.filter_cons_of_pos (by exact decide_eq_true hurl),
          List.append_assoc]
        rfl
      · rw [if_neg hurl, ih, List.filter_cons_of_neg (by exact fun h => hurl (of_decide_eq_true h))]

/-- The requests for other addresses stay, in their order. -/
theorem sift_eq (url : Bytes) (queue : List (Request κ)) :
  sift url queue.length queue = queue.filter fun req => req.url ≠ url
  := by
  have h := sift_append url queue []
  rw [List.append_nil] at h
  exact h

/-! ### The locks -/

end AsyncHTTPGETClient

/-- Whether a call has `waitLock`. -/
def Caller.waits : Caller κ → ℕ
  | lockQueue _ | push _ | notify _ | unlock _ => 1
  | _ => 0

/-- Whether a call has `queueLock`. -/
def Caller.queues : Caller κ → ℕ
  | push _ | remove _ => 1
  | _ => 0

/-- Whether a call has queued a request and not notified yet. -/
def Caller.news : Caller κ → ℕ
  | notify _ => 1
  | _ => 0

/-- Whether the thread has `waitLock`. -/
def Processor.waits : Processor κ → ℕ
  | lockQueue | look | perform _ | relock | sleep | release => 1
  | _ => 0

/-- Whether the thread has `queueLock`. -/
def Processor.queues : Processor κ → ℕ
  | look => 1
  | _ => 0

/-- Whether the thread has found the queue empty. -/
def Processor.idle : Processor κ → Bool
  | sleep | waiting => true
  | _ => false

namespace AsyncHTTPGETClient

/-- What holds between the steps: each lock has one holder if it is locked and none if not, and a
thread that has found the queue empty will be told if it is not. -/
structure Sound (c : AsyncHTTPGETClient κ) : Prop where
  waits : c.requestThread.waits + (c.callers.map Caller.waits).sum = c.waitLock.toNat
  queues : c.requestThread.queues + (c.callers.map Caller.queues).sum = c.queueLock.toNat
  told : c.requestThread.idle = true → c.requestQueue ≠ [] → 0 < (c.callers.map Caller.news).sum
  buffer : c.buffer = []

variable {c c' : AsyncHTTPGETClient κ}

/-- At the start. -/
theorem sound_new :
  (new : AsyncHTTPGETClient κ).Sound
  := ⟨rfl, rfl, fun h => absurd h Bool.false_ne_true, rfl⟩

/-- After it was notified, the thread is idle only if it was about to wait. -/
theorem idle_notifyAll {t : Processor κ} (h : (notifyAll t).idle = true) :
  t = .sleep
  := by
  cases t with
  | sleep => rfl
  | _ => exact absurd h Bool.false_ne_true

/-- Notifying the thread changes none of its locks. -/
theorem waits_notifyAll (t : Processor κ) :
  (notifyAll t).waits = t.waits ∧ (notifyAll t).queues = t.queues
  := by
  cases t with
  | _ => exact ⟨rfl, rfl⟩

/-- While a call has `waitLock`, the thread has not found the queue empty and kept the lock. -/
theorem Sound.excludes (h : c.Sound) {i : ℕ} {a : Caller κ} (hi : c.callers[i]? = some a)
    (ha : a.waits = 1) :
  c.requestThread.waits = 0 ∧ c.waitLock = true
  := by
  have hone := Blocking.le_sum_map Caller.waits hi
  have hwaits := h.waits
  cases hlock : c.waitLock with
  | false =>
      rw [hlock, Bool.toNat_false] at hwaits
      omega
  | true =>
      rw [hlock, Bool.toNat_true] at hwaits
      exact ⟨by omega, rfl⟩

/-- What a call has locked is locked. -/
theorem Sound.locked (h : c.Sound) {i : ℕ} {a : Caller κ} (hi : c.callers[i]? = some a)
    (ha : a.queues = 1) :
  c.queueLock = true
  := by
  have hone := Blocking.le_sum_map Caller.queues hi
  have hqueues := h.queues
  cases hlock : c.queueLock with
  | false =>
      rw [hlock, Bool.toNat_false] at hqueues
      omega
  | true => rfl

/-- A call goes on from `a` to `b`. -/
theorem Sound.set (h : c.Sound) {i : ℕ} {a b : Caller κ} (hi : c.callers[i]? = some a)
    (hcallers : c'.callers = c.callers.set i b)
    (hwaits : c'.requestThread.waits + b.waits + c.waitLock.toNat
      = c.requestThread.waits + a.waits + c'.waitLock.toNat)
    (hqueues : c'.requestThread.queues + b.queues + c.queueLock.toNat
      = c.requestThread.queues + a.queues + c'.queueLock.toNat)
    (htold : c'.requestThread.idle = true → c'.requestQueue ≠ [] → 0 < b.news ∨
      (c.requestThread.idle = true ∧ c.requestQueue ≠ [] ∧ a.news = 0))
    (hbuffer : c'.buffer = c.buffer) :
  c'.Sound
  := by
  have hwaits' := Blocking.sum_map_set Caller.waits hi b
  have hqueues' := Blocking.sum_map_set Caller.queues hi b
  have hnews := Blocking.sum_map_set Caller.news hi b
  have hmine := Blocking.le_sum_map Caller.news hi
  have hsum := h.waits
  have hsum' := h.queues
  rw [← hcallers] at hwaits' hqueues' hnews
  refine ⟨by omega, by omega, ?_, hbuffer.trans h.buffer⟩
  intro hidle hqueue
  obtain hnew | ⟨hidle', hqueue', hnone⟩ := htold hidle hqueue
  · omega
  · have hold := h.told hidle' hqueue'
    omega

/-- A call goes on. -/
theorem Sound.goOn (h : c.Sound) {i : ℕ} {a : Caller κ} (hi : c.callers[i]? = some a)
    (hstep : c.goOn i a = some c') :
  c'.Sound
  := by
  cases a with
  | queueRequest req =>
      obtain ⟨hfree, rfl⟩ := of_free hstep
      exact h.set hi rfl (by rw [hfree]; rfl) rfl (fun hidle hne => Or.inr ⟨hidle, hne, rfl⟩) rfl
  | lockQueue req =>
      obtain ⟨hfree, rfl⟩ := of_free hstep
      exact h.set hi rfl rfl (by rw [hfree]; rfl) (fun hidle hne => Or.inr ⟨hidle, hne, rfl⟩) rfl
  | push req =>
      obtain rfl := Option.some.inj hstep
      exact h.set hi rfl rfl (by rw [h.locked hi rfl]; rfl) (fun _ _ => Or.inl Nat.one_pos) rfl
  | notify req =>
      obtain rfl := Option.some.inj hstep
      obtain ⟨hwaits, hqueues⟩ := waits_notifyAll c.requestThread
      obtain ⟨hthread, -⟩ := h.excludes hi rfl
      refine h.set hi rfl (by dsimp only; rw [hwaits]; rfl) (by dsimp only; rw [hqueues]; rfl) ?_ rfl
      intro hidle
      rw [idle_notifyAll hidle] at hthread
      cases hthread
  | unlock req =>
      obtain rfl := Option.some.inj hstep
      obtain ⟨-, hlock⟩ := h.excludes hi rfl
      exact h.set hi rfl (by rw [hlock]; rfl) rfl (fun hidle hne => Or.inr ⟨hidle, hne, rfl⟩) rfl
  | queued req => cases hstep
  | removeRequests url =>
      obtain ⟨hfree, rfl⟩ := of_free hstep
      exact h.set hi rfl rfl (by rw [hfree]; rfl) (fun hidle hne => Or.inr ⟨hidle, hne, rfl⟩) rfl
  | remove url =>
      obtain rfl := Option.some.inj hstep
      refine h.set hi rfl rfl (by rw [h.locked hi rfl]; rfl) ?_ rfl
      intro hidle hne
      refine Or.inr ⟨hidle, ?_, rfl⟩
      intro hnil
      dsimp only at hne
      rw [sift_eq, hnil] at hne
      exact hne rfl
  | removed url => cases hstep

/-- The thread goes on. -/
theorem Sound.turn (h : c.Sound) (hcallers : c'.callers = c.callers)
    (hwaits : c'.requestThread.waits + c.waitLock.toNat
      = c.requestThread.waits + c'.waitLock.toNat)
    (hqueues : c'.requestThread.queues + c.queueLock.toNat
      = c.requestThread.queues + c'.queueLock.toNat)
    (htold : c'.requestThread.idle = true → c'.requestQueue ≠ [] →
      c.requestThread.idle = true ∧ c.requestQueue ≠ [])
    (hbuffer : c'.buffer = []) :
  c'.Sound
  := by
  have hsum := h.waits
  have hsum' := h.queues
  rw [← hcallers] at hsum hsum'
  refine ⟨by omega, by omega, ?_, hbuffer⟩
  intro hidle hqueue
  obtain ⟨hidle', hqueue'⟩ := htold hidle hqueue
  rw [hcallers]
  exact h.told hidle' hqueue'

/-- What the thread has locked is locked. -/
theorem Sound.holds (h : c.Sound) :
  (c.requestThread.waits = 1 → c.waitLock = true) ∧
    (c.requestThread.queues = 1 → c.queueLock = true)
  := by
  have hwaits := h.waits
  have hqueues := h.queues
  constructor
  · intro hone
    cases hlock : c.waitLock with
    | false =>
        rw [hlock, Bool.toNat_false] at hwaits
        omega
    | true => rfl
  · intro hone
    cases hlock : c.queueLock with
    | false =>
        rw [hlock, Bool.toNat_false] at hqueues
        omega
    | true => rfl

/-- A turn of the thread. -/
theorem Sound.processRequests (h : c.Sound) {pieces : List Bytes} {code : ℕ}
    (hstep : c.processRequests pieces code = some c') :
  c'.Sound
  := by
  obtain ⟨hwaits, hqueues⟩ := h.holds
  have hbuffer := h.buffer
  cases turn_of_processRequests hstep with
  | test hthread =>
      refine h.turn rfl ?_ ?_ ?_ hbuffer
      · dsimp only
        rw [hthread]
        split <;> rfl
      · dsimp only
        rw [hthread]
        split <;> rfl
      · intro hidle
        dsimp only at hidle
        split at hidle <;> cases hidle
  | lockWait hthread hfree =>
      exact h.turn rfl (by rw [hthread, hfree]; rfl) (by rw [hthread]; rfl) nofun hbuffer
  | lockQueue hthread hfree | relock hthread hfree =>
      exact h.turn rfl (by rw [hthread]; rfl) (by rw [hthread, hfree]; rfl) nofun hbuffer
  | take hthread =>
      rw [hthread] at hqueues
      exact h.turn rfl (by rw [hthread]; rfl) (by rw [hthread, hqueues rfl]; rfl) nofun hbuffer
  | empty hthread hnil =>
      rw [hthread] at hqueues
      exact h.turn rfl (by rw [hthread]; rfl) (by rw [hthread, hqueues rfl]; rfl)
        (fun _ hne => absurd hnil hne) hbuffer
  | perform hthread =>
      exact h.turn rfl (by rw [hthread]; rfl) (by rw [hthread]; rfl) nofun rfl
  | sleep hthread =>
      rw [hthread] at hwaits
      exact h.turn rfl (by rw [hthread, hwaits rfl]; rfl) (by rw [hthread]; rfl)
        (fun _ hne => ⟨by rw [hthread]; rfl, hne⟩) hbuffer
  | woken hthread hfree =>
      exact h.turn rfl (by rw [hthread, hfree]; rfl) (by rw [hthread]; rfl) nofun hbuffer
  | release hthread =>
      rw [hthread] at hwaits
      exact h.turn rfl (by rw [hthread, hwaits rfl]; rfl) (by rw [hthread]; rfl) nofun hbuffer

/-- A new call holds nothing. -/
theorem Sound.spawn (h : c.Sound) {a : Caller κ} (hwaits : a.waits = 0) (hqueues : a.queues = 0) :
  ({ c with callers := c.callers ++ [a] } : AsyncHTTPGETClient κ).Sound
  := by
  have hsum : ∀ f : Caller κ → ℕ, ((c.callers ++ [a]).map f).sum = (c.callers.map f).sum + f a := by
    intro f
    rw [List.map_append, List.sum_append, List.map_singleton, List.sum_singleton]
  refine ⟨?_, ?_, ?_, h.buffer⟩
  · dsimp only
    rw [hsum, hwaits]
    exact h.waits
  · dsimp only
    rw [hsum, hqueues]
    exact h.queues
  · intro hidle hqueue
    have hold := h.told hidle hqueue
    dsimp only
    rw [hsum]
    omega

/-- Any step. -/
theorem Sound.step (h : c.Sound) {e : ClientEvent κ} (hstep : c.step e = some c') :
  c'.Sound
  := by
  cases e with
  | queueRequest req =>
      obtain ⟨-, ⟨⟩⟩ := Option.ite_none_right_eq_some.mp hstep
      exact h.spawn rfl rfl
  | removeRequests url =>
      obtain ⟨-, ⟨⟩⟩ := Option.ite_none_right_eq_some.mp hstep
      exact h.spawn rfl rfl
  | call i =>
      obtain ⟨a, hi, hgo⟩ := Option.bind_eq_some_iff.mp hstep
      exact h.goOn hi hgo
  | process pieces code => exact h.processRequests hstep
  | spurious =>
      rw [AsyncHTTPGETClient.step] at hstep
      split at hstep
      case h_1 hthread =>
        obtain rfl := Option.some.inj hstep
        exact h.turn rfl (by rw [hthread]; rfl) (by rw [hthread]; rfl) nofun h.buffer
      case h_2 => cases hstep
  | destroy =>
      obtain ⟨-, ⟨⟩⟩ := Option.ite_none_right_eq_some.mp hstep
      exact h.turn rfl rfl rfl (fun hidle hne => ⟨hidle, hne⟩) h.buffer
  | destructor =>
      rw [AsyncHTTPGETClient.step] at hstep
      split at hstep
      case h_1 =>
        obtain rfl := Option.some.inj hstep
        obtain ⟨hwaits, hqueues⟩ := waits_notifyAll c.requestThread
        refine h.turn rfl (by dsimp only; rw [hwaits]) (by dsimp only; rw [hqueues]) ?_ h.buffer
        intro hidle hne
        rw [idle_notifyAll hidle]
        exact ⟨rfl, hne⟩
      case h_2 =>
        obtain rfl := Option.some.inj hstep
        exact h.turn rfl rfl rfl (fun hidle hne => ⟨hidle, hne⟩) h.buffer
      case h_3 => cases hstep

end AsyncHTTPGETClient

end Owop
