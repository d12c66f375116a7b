import Equinox.Foundation.Frame
import Equinox.V2.Upkeep

/-! # What books, sessions and events leave alone

Programs that write only to the books spare every view that does not read them.
What the logging of one event and the writing of one session do to the market,
the programs do that are made of these.
-/

namespace Equinox.V2

open Foundation CritBit

set_option synthInstance.maxSize 1000000

/-! ## Books -/

/-- A view of the market that does not read its books. -/
class Market.Unbooked {τ : Type} (f : Market → τ) : Prop where
  arenas : ∀ m arenas, f { m with arenas := arenas } = f m

namespace Market.Unbooked

variable {τ α : Type} {f : Market → τ} [hf : Unbooked f]

instance onArena (side : Side) (x : ArenaM α) : Spares f (onArena side x) where
  eq_final m := by
    unfold V2.onArena
    split <;> exact hf.arenas m _

instance applyAction (action : PlanAction) : Spares f (applyAction action) := by
  unfold V2.applyAction
  infer_instance

instance applySettlementPlan (plan : PlannedMatch) : Spares f (applySettlementPlan plan) :=
  .forM plan.actions

instance insertRemainder (input : OrderInput) (remaining : ℕ) :
    Spares f (insertRemainder input remaining) := by
  unfold V2.insertRemainder
  infer_instance

instance removeFixed (i : ℕ) (key : Key) : Spares f (removeFixed i key) where
  eq_final m := by
    unfold V2.removeFixed
    split
    · rename_i hb
      exact kept_of_ok f hb
    · rename_i hb
      exact kept_of_error f hb
    · rename_i hb
      exact ((onArena _ _).eq_final _).trans (kept_of_error f hb)

instance cancelBothSides (i max : ℕ) : Spares f (cancelBothSides i max) := by
  unfold V2.cancelBothSides
  infer_instance

end Market.Unbooked

/-! ## Events and sessions -/

section Events

variable {R : Market → Market → Prop} [Std.Refl R] [IsTrans Market R]
  [∀ kind t payload, Leads R (logEvent kind t payload)]

instance leads_logEventIf (p : Prop) [Decidable p] (kind : EventKind) (t : ℕ)
    (payload : EventPayload) : Leads R (logEventIf p kind t payload) := by
  unfold logEventIf
  infer_instance

instance leads_logOrder (order : PlaceOrderData) (plan : OrderPlan) (t : ℕ) :
    Leads R (logOrder order plan t) := by
  unfold logOrder
  infer_instance

instance leads_settleSession [∀ key session, Leads R (writeSession key session)] (ctx : Context)
    (session : Option TradingSession) (key : SessionKey) (notional : ℤ) (nonce now : ℕ) :
    Leads R (settleSession ctx session key notional nonce now) := by
  unfold settleSession consumeSessionAction
  split <;> infer_instance

end Events

end Equinox.V2
