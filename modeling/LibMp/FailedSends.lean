import LibMp.EventBatch
import LibMp.Refused
import LibMp.TakenIds

/- Sends on a stream that fail, with event sync.

   A send on a stream notes its id in `last_posted_trigger_id` before the first
   call that can fail, and nothing takes it back. `last_posted_trigger_id` only
   goes up (`Raises`): the posts check their id against it, and a new request has
   a new id. What is noted once is therefore there when the call returns,
   whatever it returns. -/
namespace LibMp
variable {cfg : Config}

/-! ## The call leaves no trace -/

/-- The ids noted as posted go up. -/
structure Raises (w w' : World) : Prop where
  le : ∀ c f, (w.clients c).lastPostedTriggerId f ≤ (w'.clients c).lastPostedTriggerId f

instance : IsPreorder World Raises where
  refl _ := ⟨fun _ _ => Nat.le_refl _⟩
  trans _ _ _ h h' := ⟨fun c f => Nat.le_trans (h.le c f) (h'.le c f)⟩

end LibMp
