import OwopServer.Library.Blocking
import OwopServer.Library.Runs
import OwopServer.WebSocket.Frames

/-!
# Sending

How messages are sent: `Socket::write` and `Socket::io_cb` of `Socket.h`, and `send`,
`prepareMessage`, `sendPrepared`, `finalizeMessage`, `close` and `onEnd` of `WebSocket.cpp`.  The
kernel takes as much of a message as it likes, and the rest waits in a queue.  A message for many
sockets is prepared once, and freed when it was sent to all of them.
-/

namespace Owop

namespace WebSocket

/-! ### One socket -/

/-- Where a `PreparedMessage` is in memory. -/
abbrev PreparedPtr := ℕ

/-- What `::send` answers: the number of bytes it took, or an error. -/
inductive Sent where
  | sent (n : ℕ)
  | wouldBlock
  | failed
  deriving DecidableEq

/-- The callback of a message: none, that of `sendPrepared`, or that of `close`. -/
inductive Callback where
  | none
  | prepared (p : PreparedPtr)
  | shutdown
  deriving DecidableEq

/-- The prepared message that a callback releases. -/
def Callback.released : Callback → List PreparedPtr
  | prepared p => [p]
  | _ => []

/-- `SocketData::Queue::Message`, with the bytes that `data` and `length` say.  The bytes are those
of the prepared message, if there is one. -/
structure Message where
  data : Bytes
  callback : Callback

/-- What `SocketData` knows about sending: `polls` is the bit `UV_WRITABLE` of `poll`, and `ended`
tells that the data was deleted.  The last three components are history: what the kernel took,
whether the socket was shut down after that, and the messages that were accepted. -/
structure Sender where
  messageQueue : List Message
  polls : Bool
  shuttingDown : Bool
  ended : Bool
  wire : Bytes
  finished : Bool
  given : List (UInt8 × Bytes)

namespace Sender

/-- A socket that has sent nothing. -/
def new : Sender := ⟨[], false, false, false, [], false, []⟩

/-- Call the callback of a message that was sent. -/
def complete (d : Sender) : Callback → Sender
  | .shutdown => { d with finished := true }
  | _ => d

/-- `Socket::write`, for the frame `m` of the message `msg`: the socket, and the prepared messages
that are released. -/
def write (d : Sender) (msg : UInt8 × Bytes) (m : Message) (sent : Sent) :
    Sender × List PreparedPtr :=
  if d.messageQueue.isEmpty then
    match sent with
    | .sent n =>
        let d := { d with wire := d.wire ++ m.data.take n, given := d.given ++ [msg] }
        if m.data.length ≤ n then (d.complete m.callback, m.callback.released)
        else
          let rest : Message := { m with data := m.data.drop n }
          ({ d with messageQueue := [rest], polls := true }, [])
    | .wouldBlock =>
        ({ d with messageQueue := [m], polls := true, given := d.given ++ [msg] }, [])
    | .failed => (d, m.callback.released)
  else ({ d with messageQueue := d.messageQueue ++ [m], given := d.given ++ [msg] }, [])

/-- The loop of `Socket::io_cb` over the queue, for the answers of `::send`: the socket, the
prepared messages that are released, and whether the socket has failed. -/
def flush : List Sent → Sender → Sender × List PreparedPtr × Bool
  | [], d => (d, [], false)
  | sent :: answers, d =>
      match d.messageQueue with
      | [] => (d, [], false)
      | m :: queue =>
          match sent with
          | .sent n =>
              let d := { d with wire := d.wire ++ m.data.take n }
              if m.data.length ≤ n then
                let d := { d.complete m.callback with messageQueue := queue }
                if queue.isEmpty then ({ d with polls := false }, m.callback.released, false)
                else
                  let (d, released, failed) := flush answers d
                  (d, m.callback.released ++ released, failed)
              else
                let rest : Message := { m with data := m.data.drop n }
                ({ d with messageQueue := rest :: queue }, [], false)
          | .wouldBlock => (d, [], false)
          | .failed => (d, [], true)

/-- `WebSocket::onEnd`: the callbacks of the messages that wait are called, and the data is
deleted. -/
def onEnd (d : Sender) : Sender × List PreparedPtr :=
  ({ d with messageQueue := [], ended := true },
    d.messageQueue.flatMap fun m => m.callback.released)

end Sender

/-! ### All sockets -/

/-- `PreparedMessage` -/
structure PreparedMessage where
  buffer : Bytes
  references : ℤ

/-- The sockets of a hub, the prepared messages in memory, and whether something was used after its
end. -/
structure Senders where
  sockets : List Sender
  prepared : PreparedPtr → Option PreparedMessage
  misused : Bool

namespace Senders

/-- No sockets. -/
def new : Senders := ⟨[], fun _ => none, false⟩

/-- Give back a reference to a prepared message, and free it with the last one. -/
def release (s : Senders) (p : PreparedPtr) : Senders :=
  match s.prepared p with
  | some message =>
      let references := message.references - 1
      if references = 0 then { s with prepared := Function.update s.prepared p none }
      else
        { s with prepared := Function.update s.prepared p (some { message with references }) }
  | none => { s with misused := true }

/-- Use a socket. -/
def withSocket (s : Senders) (ws : ℕ) (k : Sender → Sender × List PreparedPtr) : Senders :=
  match s.sockets[ws]? with
  | some d =>
      if d.ended then { s with misused := true }
      else (k d).2.foldl release { s with sockets := s.sockets.set ws (k d).1 }
  | none => { s with misused := true }

/-- `WebSocket::send`, which does what `Socket::write` does. -/
def send (s : Senders) (ws : ℕ) (op : UInt8) (payload : Bytes) (callback : Callback) (sent : Sent) :
    Senders :=
  s.withSocket ws fun d => d.write (op, payload) ⟨formatMessage none payload op, callback⟩ sent

/-- `WebSocket::close`, without the handler of disconnections and the timeout. -/
def close (s : Senders) (ws : ℕ) (code : UInt16) (message : Bytes) (sent : Sent) : Senders :=
  let s := s.withSocket ws fun d => ({ d with shuttingDown := true }, [])
  s.send ws opClose (formatClosePayload ⟨code, message.take 123⟩) .shutdown sent

/-- `WebSocket::prepareMessage`, which gets the memory `p`. -/
def prepareMessage (s : Senders) (p : PreparedPtr) (op : UInt8) (payload : Bytes) : Senders :=
  { s with prepared := Function.update s.prepared p (some ⟨formatMessage none payload op, 1⟩) }

/-- `WebSocket::sendPrepared`, for the prepared message of `op` and `payload`. -/
def sendPrepared (s : Senders) (ws : ℕ) (p : PreparedPtr) (op : UInt8) (payload : Bytes)
    (sent : Sent) : Senders :=
  match s.prepared p with
  | some message =>
      let references := message.references + 1
      ({ s with prepared := Function.update s.prepared p (some { message with references }) } :
        Senders).withSocket ws fun d => d.write (op, payload) ⟨message.buffer, .prepared p⟩ sent
  | none => { s with misused := true }

/-- `WebSocket::finalizeMessage` -/
def finalizeMessage (s : Senders) (p : PreparedPtr) : Senders := s.release p

/-- A message is prepared, sent to some sockets and finalized, as in `World::broadcast`. -/
def broadcast (s : Senders) (p : PreparedPtr) (op : UInt8) (payload : Bytes)
    (targets : List (ℕ × Sent)) : Senders :=
  let s := s.prepareMessage p op payload
  let s := targets.foldl (fun s target => s.sendPrepared target.1 p op payload target.2) s
  s.finalizeMessage p

/-- A message that waits is in memory. -/
def alive (s : Senders) (m : Message) : Bool :=
  m.callback.released.all fun p => (s.prepared p).isSome

/-- `Socket::io_cb` when the socket is writable. -/
def pollOut (s : Senders) (ws : ℕ) (answers : List Sent) : Senders :=
  let s := if (s.sockets[ws]?).all fun d => d.messageQueue.all s.alive then s
    else { s with misused := true }
  s.withSocket ws fun d =>
    let (d, released, failed) := d.flush answers
    if failed then (d.onEnd.1, released ++ d.onEnd.2) else (d, released)

/-- What happens to the sockets. -/
inductive Event where
  | connect
  | send (ws : ℕ) (op : UInt8) (payload : Bytes) (sent : Sent)
  | broadcast (p : PreparedPtr) (op : UInt8) (payload : Bytes) (targets : List (ℕ × Sent))
  | close (ws : ℕ) (code : UInt16) (message : Bytes) (sent : Sent)
  | pollOut (ws : ℕ) (answers : List Sent)
  /-- The connection ends, for an error, a timeout or the peer. -/
  | onEnd (ws : ℕ)

/-- The sockets after an event. -/
def step (s : Senders) : Event → Senders
  | .connect => { s with sockets := s.sockets ++ [Sender.new] }
  | .send ws op payload sent => s.send ws op payload .none sent
  | .broadcast p op payload targets => s.broadcast p op payload targets
  | .close ws code message sent => s.close ws code message sent
  | .pollOut ws answers => s.pollOut ws answers
  | .onEnd ws => s.withSocket ws Sender.onEnd

end Senders

end WebSocket

end Owop
