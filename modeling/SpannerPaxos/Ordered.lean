import SpannerPaxos.Tenure

/-! # Delivery in order

A tenure whose accept messages arrive in the order in which they were sent: for
each follower there is a next request and a next response, and a delivery does
not go back behind it.  A message that is skipped is lost.
-/
namespace SpannerPaxos

structure Ordered where
  tenure : Tenure
  /-- The first request of each follower that can still be delivered. -/
  nextRequest : Uuid → Nat
  /-- The first response of each follower that can still be delivered. -/
  nextResponse : Uuid → Nat

namespace Ordered

/-- The tenure before anything has been delivered. -/
def start (s : Tenure) : Ordered := ⟨s, fun _ => 0, fun _ => 0⟩

def step (o : Ordered) (l : Tenure.Label) : Option Ordered :=
  (o.tenure.step l).bind fun tenure =>
    match l with
    | .deliverRequest p i _ =>
      if o.nextRequest p ≤ i then
        some { o with tenure := tenure, nextRequest := Function.update o.nextRequest p (i + 1) }
      else none
    | .deliverResponse p i _ =>
      if o.nextResponse p ≤ i then
        some { o with tenure := tenure, nextResponse := Function.update o.nextResponse p (i + 1) }
      else none
    | _ => some { o with tenure := tenure }

/-- No message is skipped either. -/
def Lossless (o : Ordered) : Tenure.Label → Prop
  | .deliverRequest p i _ => i = o.nextRequest p
  | .deliverResponse p i _ => i = o.nextResponse p
  | _ => True

instance (o : Ordered) (l : Tenure.Label) : Decidable (o.Lossless l) :=
  match l with
  | .deliverRequest p i _ => inferInstanceAs (Decidable (i = o.nextRequest p))
  | .deliverResponse p i _ => inferInstanceAs (Decidable (i = o.nextResponse p))
  | .clientWrite _ _ | .writeFlush _ | .heartbeat _ | .timeoutCheck _ => isTrue trivial

/-- A step in order is a step of the tenure. -/
theorem step_tenure {o o' : Ordered} {l : Tenure.Label} (h : o.step l = some o') :
    o.tenure.step l = some o'.tenure := by
  obtain ⟨tenure, htenure, hrest⟩ := Option.bind_eq_some_iff.mp h
  rw [htenure]
  split at hrest
  · split at hrest
    · cases Option.some.inj hrest
      rfl
    · cases hrest
  · split at hrest
    · cases Option.some.inj hrest
      rfl
    · cases hrest
  · cases Option.some.inj hrest
    rfl

end Ordered
end SpannerPaxos
