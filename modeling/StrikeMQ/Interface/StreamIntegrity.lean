import StrikeMQ.Interface.Messages
import StrikeMQ.Model.UringConnection

/-!
# Streams that stay whole

What a connection with operations under way has to keep: what it has received is what it has handed
on and what its buffer holds, and what it has transmitted is what was queued. Between the kernel's
completion of an operation and the worker's handling of it, the counters of the buffer are behind by
what the completion says.
-/

set_option autoImplicit false

namespace StrikeMQ.Interface

open StrikeMQ.Lib StrikeMQ.Model

variable {σ : Type}

/-- The bytes that the write buffer has taken, in order. -/
def acceptedBytes {ρ : Type} (s : Session ρ σ) : Bytes :=
  (s.queued.map fun p => p.1.take p.2).flatten

/-- What the completions of an operation that are still to be handled say. -/
def results (u : UringConnection σ) (op : UringOp) : List ℕ :=
  (u.cqes.filter fun c => c.op = op).map Cqe.res

/-- `received`: the frames handed on, the bytes in the read buffer and those of completions still to
be handled. `sent`: with what the write buffer holds behind the completions still to be handled, all
that it has taken. -/
structure StreamsIntact (u : UringConnection σ) : Prop where
  received : ∃ bs, bs.length = (results u .recv).sum ∧
    u.session.received = framesWire u.session.routed ++
      (u.session.conn.readBuf.peek u.session.conn.readBuf.size ++ bs)
  sent : u.session.sent ++
      (u.session.conn.writeBuf.peek u.session.conn.writeBuf.size).drop (results u .send).sum =
    acceptedBytes u.session

/-- A submission is made while no operation of its kind is under way: none that the kernel has not
completed, and none whose completion has not been handled. -/
def Alone (u : UringConnection σ) : UringStep → Prop
  | .submit recvSqe sendSqe =>
    (recvSqe = true → u.recvs = [] ∧ results u .recv = []) ∧
      (sendSqe = true → u.sends = [] ∧ results u .send = [])
  | _ => True

instance (u : UringConnection σ) : (a : UringStep) → Decidable (Alone u a)
  | .submit recvSqe sendSqe => inferInstanceAs (Decidable
      ((recvSqe = true → u.recvs = [] ∧ results u .recv = []) ∧
        (sendSqe = true → u.sends = [] ∧ results u .send = [])))
  | .recvDone _ _ => isTrue trivial
  | .sendDone _ _ => isTrue trivial
  | .recvFailed _ => isTrue trivial
  | .sendFailed _ => isTrue trivial
  | .reap => isTrue trivial

/-- Every step of a run is `Alone` in the state in which it is taken. -/
def SubmitsAlone (route : Bytes → σ → Bytes × σ) : UringConnection σ → List UringStep → Prop
  | _, [] => True
  | u, a :: steps =>
    Alone u a ∧ match u.step route a with
      | none => True
      | some v => SubmitsAlone route v steps

instance decidableSubmitsAlone (route : Bytes → σ → Bytes × σ) :
    (u : UringConnection σ) → (steps : List UringStep) → Decidable (SubmitsAlone route u steps)
  | _, [] => isTrue trivial
  | u, a :: steps =>
    have : Decidable (match u.step route a with
        | none => True
        | some v => SubmitsAlone route v steps) :=
      match u.step route a with
      | none => isTrue trivial
      | some v => decidableSubmitsAlone route v steps
    inferInstanceAs (Decidable (_ ∧ _))

end StrikeMQ.Interface
