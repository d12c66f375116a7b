import Equinox.Foundation.Frame
import Equinox.Market.Settle

/-! # What trading leaves alone

Orders, fills and cancellations write seats, books and events, two ledgers of the
core, its open interest and its sequences. A view of the market that does not
read any of these is the same after them, and also where they fail.
-/

namespace Equinox

open Foundation CritBit

set_option synthInstance.maxSize 1000000

/-- A view of the market that reads nothing that trading writes. -/
class Market.Untraded {τ : Type} (f : Market → τ) : Prop where
  seats : ∀ m seats, f { m with seats := seats } = f m
  books : ∀ m books, f { m with books := books } = f m
  events : ∀ m events, f { m with events := events } = f m
  ledgers : ∀ (m : Market) fees liability,
    f { m with core := { m.core with protocolFeeBalance := fees, vaultLiability := liability } } =
      f m
  interest : ∀ (m : Market) total sequence,
    f { m with core := { m.core with currentOpenInterest := total
                                     globalOrderSequence := sequence } } = f m
  sequence : ∀ (m : Market) sequence,
    f { m with core := { m.core with globalEventSequence := sequence } } = f m

/-- It does not read the sessions either. -/
class Market.Unspent {τ : Type} (f : Market → τ) : Prop extends Untraded f where
  sessions : ∀ m sessions, f { m with sessions := sessions } = f m

namespace Market.Untraded

variable {τ α : Type} {f : Market → τ} [hf : Untraded f]

instance writeV3Seat (i : ℕ) (seat : TraderSeat) : Spares f (writeV3Seat i seat) :=
  .modify fun m => hf.seats m _

instance onBook (side : Side) (x : BookM α) : Spares f (onBook side x) where
  eq_final m := by
    unfold Equinox.onBook
    split <;> exact hf.books m _

instance modifySequence (sequence : ℕ) : Spares f (modifyCore fun core =>
    { core with globalEventSequence := sequence }) := .modify fun m => hf.sequence m sequence

instance modifyEvents (g : Market → ℕ → ℕ → Option EventRecord) :
    Spares f (modify fun m => { m with events := g m } : MarketM Unit) :=
  .modify fun m => hf.events m (g m)

instance modifyLedgers (fees liability : ℤ) : Spares f (modifyCore fun core =>
    { core with protocolFeeBalance := fees, vaultLiability := liability }) :=
  .modify fun m => hf.ledgers m fees liability

instance modifyInterest (total : ℤ) (sequence : U64) : Spares f (modifyCore fun core =>
    { core with currentOpenInterest := total, globalOrderSequence := sequence }) :=
  .modify fun m => hf.interest m total sequence

instance appendEventRecord (kind : EventKind) (payload : EventPayload) (t : ℕ) :
    Spares f (appendEventRecord kind payload t) := by
  unfold Equinox.appendEventRecord
  infer_instance

instance appendEventRecords (records : List (EventKind × EventPayload)) (t : ℕ) :
    Spares f (appendEventRecords records t) := by
  unfold Equinox.appendEventRecords
  infer_instance

instance releaseCancelled (config : V3RiskConfig) (cancel : V3SelfTradeCancellation) :
    Spares f (releaseCancelled config cancel) := by
  unfold Equinox.releaseCancelled
  infer_instance

instance settleV3Fill (i : ℕ) (side : Side) (config : V3RiskConfig) (fill : V3Fill) :
    Spares f (settleV3Fill i side config fill) := by
  unfold Equinox.settleV3Fill
  infer_instance

instance restRemainder (order : PlaceOrderData) (prepared : PreparedOrder) :
    Spares f (restRemainder order prepared) := by
  unfold Equinox.restRemainder
  infer_instance

instance settleTakerFunding (i : ℕ) (accumulator payment : ℤ) :
    Spares f (settleTakerFunding i accumulator payment) := by
  unfold Equinox.settleTakerFunding
  infer_instance

instance recordOrder (prepared : PreparedOrder) : Spares f (recordOrder prepared) := by
  unfold Equinox.recordOrder
  infer_instance

instance removeOrder (ctx : Context) (i : ℕ) (side : Side) (tree : TreeKind) (key : Key)
    (leaf : LeafNode) (reserve : ℤ) : Spares f (removeOrder ctx i side tree key leaf reserve) := by
  unfold Equinox.removeOrder
  infer_instance

instance cancelNext (ctx : Context) (i : ℕ) : Spares f (cancelNext ctx i) := by
  refine .andThen (.asking _) fun m => ?_
  split <;> infer_instance

instance cancelUpTo (ctx : Context) (i max : ℕ) : Spares f (cancelUpTo ctx i max) := by
  induction max with
  | zero => exact .pure _
  | succ max ih =>
    unfold Equinox.cancelUpTo
    infer_instance

end Market.Untraded

namespace Market.Unspent

variable {τ : Type} {f : Market → τ} [hf : Unspent f]

instance modifySessions (g : Market → SessionKey → Option TradingSession) :
    Spares f (modify fun m => { m with sessions := g m } : MarketM Unit) :=
  .modify fun m => hf.sessions m (g m)

instance consumeSession (session : Option TradingSession) (key : SessionKey) (notional : ℤ)
    (nonce now : ℕ) : Spares f (consumeSession session key notional nonce now) := by
  unfold Equinox.consumeSession consumeSessionAction
  split <;> infer_instance

instance placeOrderV3WithAction (ctx : Context) (order : PlaceOrderData) (actions : ℕ)
    (consume : Bool) : Spares f (placeOrderV3WithAction ctx order actions consume) := by
  unfold Equinox.placeOrderV3WithAction executeOrder
  infer_instance

instance cancelOrderV3WithAction (ctx : Context) (i : ℕ) (key : Key) (nonce actions : ℕ)
    (consume : Bool) : Spares f (cancelOrderV3WithAction ctx i key nonce actions consume) := by
  unfold Equinox.cancelOrderV3WithAction
  infer_instance

instance placeOrderV3 (ctx : Context) (order : PlaceOrderData) :
    Spares f (placeOrderV3 ctx order) := placeOrderV3WithAction ..

instance cancelOrderV3 (ctx : Context) (i : ℕ) (key : Key) (nonce : ℕ) :
    Spares f (cancelOrderV3 ctx i key nonce) := cancelOrderV3WithAction ..

instance cancelAllV3 (ctx : Context) (i max nonce : ℕ) :
    Spares f (cancelAllV3 ctx i max nonce) := by
  unfold Equinox.cancelAllV3
  infer_instance

instance replaceOrderV3 (ctx : Context) (key : Key) (order : PlaceOrderData) :
    Spares f (replaceOrderV3 ctx key order) := by
  unfold Equinox.replaceOrderV3
  infer_instance

end Market.Unspent

end Equinox
