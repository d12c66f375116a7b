import Equinox.Market.EventBytes

/-! # The newest events are kept

An append puts the core's next number on a record and writes it over the oldest
cell of the ring. So after any appends the shards hold the newest 128 events at
the places their numbers give, each number once, behind untouched headers. The
market's record model moves its ring in the same way.
-/

namespace Equinox

open Foundation List Bytes

namespace EventBytes

open CoreBytes

variable {accounts accounts' : EventAccounts} {call : EventCall} {calls : List EventCall}

/-! ## One append -/

theorem slots_apart {slot slot' : ℕ} (h : slot ≠ slot') :
    Region.Apart ⟨recordOffset slot, v3EventRecordSize⟩
      ⟨recordOffset slot', v3EventRecordSize⟩ := by
  simp only [Region.Apart, recordOffset, v3EventRecordSize, eventHeaderSize, eventPayloadSize]
  omega

theorem slot_within {slot : ℕ} (h : slot < v3EventsPerShard) :
    recordOffset slot + v3EventRecordSize ≤ v3EventShardSize := by
  simp only [recordOffset, v3EventShardSize, v3EventRecordSize, eventHeaderSize,
    eventPayloadSize, v3EventsPerShard] at h ⊢
  omega

theorem slot_lt (number : ℕ) : number % v3EventsPerShard < v3EventsPerShard :=
  Nat.mod_lt _ (by decide)

theorem shards_appended (index : ℕ) : (appended accounts call).shards[index]? =
    if eventSequence accounts / v3EventsPerShard % v3EventShards = index then
      accounts.shards[index]?.map fun shard => { shard with
        data := shard.data.write (recordOffset (eventSequence accounts % v3EventsPerShard))
          (eventRecord call.kind.toNat call.payload (eventSequence accounts)
            accounts.core.address call.timestamp.toNat) }
    else accounts.shards[index]? := by
  rw [appended, getElem?_modify]
  split <;> rename_i h <;> cases accounts.shards[index]? <;> simp

theorem eventSequence_appended (h : Usable accounts)
    (hr : eventSequence accounts + 1 < 2 ^ 64) :
    eventSequence (appended accounts call) = eventSequence accounts + 1 := by
  have hs := (validateEventCore_eq h.core).2.2
  have hin : v3CoreGlobalEventSequenceOffset + 8 ≤ accounts.core.data.length := by
    rw [hs]
    decide
  rw [eventSequence, coreUnsigned, appended, slice_write (length_ofNat 8 _) hin,
    toNat_ofNat_of_lt hr]

section Writing

variable (h : Usable accounts) {shard : AccountView} {index : ℕ}
  (hshard : accounts.shards[index]? = some shard)

include h hshard

theorem record_within : recordOffset (eventSequence accounts % v3EventsPerShard) +
    v3EventRecordSize ≤ shard.data.length := by
  rw [validateEventShard_size (h.shard index shard hshard)]
  exact slot_within (slot_lt _)

theorem slotBytes_write {kind timestamp slot : ℕ} {payload : Bytes} : slotBytes { shard with
      data := shard.data.write (recordOffset (eventSequence accounts % v3EventsPerShard))
        (eventRecord kind payload (eventSequence accounts) accounts.core.address timestamp) }
      slot = if slot = eventSequence accounts % v3EventsPerShard then
        eventRecord kind payload (eventSequence accounts) accounts.core.address timestamp
      else slotBytes shard slot := by
  have hw := record_within h hshard
  split
  · rename_i hs
    subst hs
    exact slice_write length_eventRecord hw
  · rename_i hs
    exact slice_write_apart length_eventRecord hw (slots_apart (Ne.symm hs))

theorem header_write {kind timestamp : ℕ} {payload : Bytes} :
    (shard.data.write (recordOffset (eventSequence accounts % v3EventsPerShard))
      (eventRecord kind payload (eventSequence accounts) accounts.core.address
        timestamp)).slice 0 v3ShardHeaderSize = shard.data.slice 0 v3ShardHeaderSize :=
  slice_write_apart length_eventRecord (record_within h hshard)
    (.inr (by simp only [recordOffset]; omega))

end Writing

theorem eventAt_appended (h : Usable accounts) (hr : eventSequence accounts + 1 < 2 ^ 64)
    (index slot : ℕ) : eventAt (appended accounts call) index slot =
      if index = eventSequence accounts / v3EventsPerShard % v3EventShards ∧
          slot = eventSequence accounts % v3EventsPerShard then
        some (call.event (eventSequence accounts) accounts.core.address)
      else eventAt accounts index slot := by
  rw [eventAt, eventAt, shards_appended]
  by_cases hi : eventSequence accounts / v3EventsPerShard % v3EventShards = index
  swap
  · rw [if_neg hi, if_neg (fun h' => hi h'.1.symm)]
  have hlt : index < accounts.shards.length := by
    rw [h.shards, ← hi]
    exact Nat.mod_lt _ (by decide)
  have hshard : accounts.shards[index]? = some accounts.shards[index] := getElem?_eq_getElem hlt
  rw [if_pos hi, hshard]
  simp only [hi, true_and, Option.map_some, Option.bind_eq_bind, Option.bind_some,
    slotBytes_write h hshard]
  split
  · exact readEvent_eventRecord (by omega)
  · rfl

theorem ring_appended (h : Usable accounts) (hr : eventSequence accounts + 1 < 2 ^ 64) :
    ring (appended accounts call) = (ring accounts).push ringSize
      (call.event (eventSequence accounts) accounts.core.address) := by
  rw [ring, eventSequence_appended h hr]
  exact LogRing.ofRows_push (by decide) (eventAt_appended h hr)

theorem header_appended (h : Usable accounts) (index : ℕ) :
    header (appended accounts call) index = header accounts index := by
  rw [header, header, shards_appended]
  split
  · cases hshard : accounts.shards[index]? with
    | none => rfl
    | some shard => simp only [Option.map_some, header_write h hshard]
  · rfl

theorem validateEventShard_write {shard : AccountView} {index slot : ℕ} {record : Bytes}
    {core : Address} (hv : validateEventShard shard core index = .ok ())
    (hl : record.length = v3EventRecordSize) (hs : slot < v3EventsPerShard) :
    validateEventShard { shard with data := shard.data.write (recordOffset slot) record } core
      index = .ok () := by
  have hin : recordOffset slot + v3EventRecordSize ≤ shard.data.length := by
    rw [validateEventShard_size hv]
    exact slot_within hs
  have hw {offset width : ℕ} (h : offset + width ≤ v3ShardHeaderSize) :
      (shard.data.write (recordOffset slot) record).slice offset width =
        shard.data.slice offset width :=
    slice_write_apart hl hin (.inr (by simp only [recordOffset]; omega))
  simp (disch := decide) only [validateEventShard, length_write, hw]
  exact hv

theorem Usable.appended (h : Usable accounts) (call : EventCall) :
    Usable (appended accounts call) where
  shards := (length_modify ..).trans h.shards
  core := by
    have hin : v3CoreGlobalEventSequenceOffset + 8 ≤ accounts.core.data.length := by
      rw [(validateEventCore_eq h.core).2.2]
      decide
    have hw {offset width : ℕ} (ha : Region.Apart ⟨v3CoreGlobalEventSequenceOffset, 8⟩
        ⟨offset, width⟩) := slice_write_apart (length_ofNat 8 (eventSequence accounts + 1)) hin ha
    simp (disch := decide) only [validateEventCore, EventBytes.appended, length_write, coreUnsigned,
      hw]
    exact h.core
  shard index shard hs := by
    rw [shards_appended] at hs
    split at hs
    · obtain ⟨old, ho, rfl⟩ := Option.map_eq_some_iff.1 hs
      exact validateEventShard_write (h.shard index old ho) length_eventRecord (slot_lt _)
    · exact h.shard index shard hs

/-! ## All appends -/

/-- The events of a list of calls, numbered from `sequence` on. -/
def events (sequence : ℕ) (core : Address) (calls : List EventCall) : List StoredEvent :=
  calls.mapIdx fun j call => call.event (sequence + j) core

@[simp] theorem length_events {sequence : ℕ} {core : Address} :
    (events sequence core calls).length = calls.length := length_mapIdx

theorem getElem?_events {sequence j : ℕ} {core : Address} {e : StoredEvent} :
    (events sequence core calls)[j]? = some e ↔
      ∃ call, calls[j]? = some call ∧ call.event (sequence + j) core = e := by
  rw [events, getElem?_mapIdx, Option.map_eq_some_iff]

theorem eventAt_of_blank (h : Blank accounts) {index slot : ℕ} (hs : slot < v3EventsPerShard) :
    eventAt accounts index slot = none := by
  rw [eventAt]
  cases hshard : accounts.shards[index]? with
  | none => rfl
  | some shard =>
    have hz := h shard (mem_of_getElem? hshard)
    have hb : slotBytes shard slot = replicate v3EventRecordSize 0 := by
      rw [slotBytes, slice, recordOffset, ← drop_drop, hz, drop_replicate, take_replicate]
      congr 1
      simp only [v3EventRecordSize, eventHeaderSize, eventPayloadSize, v3EventsPerShard] at hs ⊢
      omega
    simp only [Option.bind_eq_bind, Option.bind_some, hb]
    decide

theorem keeps_of_blank (h : Blank accounts) :
    LogRing.Keeps ringSize (eventSequence accounts) [] (ring accounts) := by
  refine LogRing.keeps_nil rfl fun i => ?_
  simp only [ring, LogRing.ofRows, ite_eq_right_iff]
  exact fun _ => eventAt_of_blank h (slot_lt i)

/-- What a run of appends does to the ring, the core's address and the shards' headers. -/
structure Appends (accounts : EventAccounts) (calls : List EventCall) (accounts' : EventAccounts) :
    Prop where
  address : accounts'.core.address = accounts.core.address
  ring : LogRing.Keeps ringSize (eventSequence accounts)
    (events (eventSequence accounts) accounts.core.address calls) (ring accounts')
  headers : ∀ index, header accounts' index = header accounts index

theorem Appends.sequence (h : Appends accounts calls accounts') :
    eventSequence accounts' = eventSequence accounts + calls.length := by
  have hn := h.ring.next
  rwa [length_events] at hn

theorem Appends.append (h : Appends accounts calls accounts') {accounts'' : EventAccounts}
    (hs : appendEventRecord accounts' call = .ok accounts'') :
    Appends accounts (calls ++ [call]) accounts'' := by
  obtain ⟨hu, hr, rfl⟩ := appendEventRecord_eq_ok.1 hs
  refine ⟨h.address, ?_, fun index => (header_appended hu index).trans (h.headers index)⟩
  rw [ring_appended hu hr, events, mapIdx_concat, h.address, h.sequence]
  exact h.ring.push (by decide) _

theorem appends_of_appendAll (hb : Blank accounts)
    (hr : appendAll accounts calls = .ok accounts') : Appends accounts calls accounts' := by
  induction calls using reverseRecOn generalizing accounts' with
  | nil =>
    obtain rfl := pure_eq_ok.1 hr
    exact ⟨rfl, keeps_of_blank hb, fun _ => rfl⟩
  | append_singleton calls call ih =>
    rw [appendAll, foldlM_append, bind_eq_ok] at hr
    obtain ⟨accounts₁, hc, hl⟩ := hr
    rw [foldlM_cons, bind_eq_ok] at hl
    obtain ⟨accounts₂, hs, hn⟩ := hl
    obtain rfl := pure_eq_ok.1 hn
    exact (ih hc).append hs

theorem exists_appendAll (h : Usable accounts)
    (hr : eventSequence accounts + calls.length < 2 ^ 64) :
    ∃ accounts', appendAll accounts calls = .ok accounts' := by
  induction calls generalizing accounts with
  | nil => exact ⟨accounts, rfl⟩
  | cons call calls ih =>
    rw [length_cons] at hr
    have hn : eventSequence accounts + 1 < 2 ^ 64 := by omega
    obtain ⟨accounts', ha⟩ := ih (h.appended call) (by rw [eventSequence_appended h hn]; omega)
    refine ⟨accounts', ?_⟩
    rw [appendAll, foldlM_cons, appendEventRecord_eq_ok.2 ⟨h, hn, rfl⟩]
    exact ha

theorem cells_ring {index slot : ℕ} (hi : index < v3EventShards)
    (hs : slot < v3EventsPerShard) :
    (ring accounts).cells (v3EventsPerShard * index + slot) = eventAt accounts index slot :=
  LogRing.cells_ofRows hi hs

section Places

variable (h : Appends accounts calls accounts')

include h

theorem Appends.newest {j : ℕ} (hc : calls[j]? = some call) (hn : calls.length ≤ j + 128) :
    eventAt accounts' ((eventSequence accounts + j) / 32 % 4) ((eventSequence accounts + j) % 32) =
      some (call.event (eventSequence accounts + j) accounts.core.address) := by
  have hi : (eventSequence accounts + j) / 32 % 4 < v3EventShards := Nat.mod_lt _ (by decide)
  have hs : (eventSequence accounts + j) % 32 < v3EventsPerShard := Nat.mod_lt _ (by decide)
  refine (cells_ring hi hs).symm.trans ((h.ring.cells _ _).2 ?_)
  refine ⟨j, getElem?_events.2 ⟨call, hc, rfl⟩, by rwa [length_events], ?_⟩
  simp only [ringSize, v3EventShards, v3EventsPerShard]
  omega

theorem Appends.place {index slot : ℕ} {e : StoredEvent} (hi : index < 4) (hs : slot < 32)
    (he : eventAt accounts' index slot = some e) :
    index = e.sequence / 32 % 4 ∧ slot = e.sequence % 32 ∧
      ∃ j call, calls[j]? = some call ∧ calls.length ≤ j + 128 ∧
        e = call.event (eventSequence accounts + j) accounts.core.address := by
  obtain ⟨j, hj, hn, hce⟩ := (h.ring.cells _ e).1 ((cells_ring hi hs).trans he)
  rw [length_events] at hn
  obtain ⟨call, hc, rfl⟩ := getElem?_events.1 hj
  simp only [ringSize, v3EventShards, v3EventsPerShard] at hce
  exact ⟨by simp only [EventCall.event]; omega, by simp only [EventCall.event]; omega, j, call,
    hc, hn, rfl⟩

end Places

/-- After any successful appends to zeroed shards, the shards hold the newest 128 events, each
at the place its number gives and nowhere else. -/
theorem newest_events_kept (hblank : Blank accounts)
    (hrun : appendAll accounts calls = .ok accounts') :
    eventSequence accounts' = eventSequence accounts + calls.length ∧
    (∀ j call, calls[j]? = some call → calls.length ≤ j + 128 →
      eventAt accounts' ((eventSequence accounts + j) / 32 % 4)
          ((eventSequence accounts + j) % 32) =
        some (call.event (eventSequence accounts + j) accounts.core.address)) ∧
    (∀ index < 4, ∀ slot < 32, ∀ e, eventAt accounts' index slot = some e →
      index = e.sequence / 32 % 4 ∧ slot = e.sequence % 32 ∧
      ∃ j call, calls[j]? = some call ∧ calls.length ≤ j + 128 ∧
        e = call.event (eventSequence accounts + j) accounts.core.address) ∧
    (∀ index < 4, ∀ slot < 32, ∀ index' < 4, ∀ slot' < 32, ∀ e e',
      eventAt accounts' index slot = some e → eventAt accounts' index' slot' = some e' →
      e.sequence = e'.sequence → index = index' ∧ slot = slot') ∧
    ∀ index, header accounts' index = header accounts index := by
  have h := appends_of_appendAll hblank hrun
  refine ⟨h.sequence, fun j call => h.newest, fun index hin slot hsl e => h.place hin hsl,
    ?_, h.headers⟩
  intro index hin slot hsl index' hin' slot' hsl' e e' he he' hsa
  obtain ⟨hi, hs, -⟩ := h.place hin hsl he
  obtain ⟨hi', hs', -⟩ := h.place hin' hsl' he'
  exact ⟨by rw [hi, hi', hsa], by rw [hs, hs', hsa]⟩

def newAccounts (address : Address) : EventAccounts where
  core :=
    { address, owned := true, writable := true
      data := v3MarketCoreDiscriminator ++ [3, 0, 1, 1] ++ replicate 4084 0 }
  shards := (range v3EventShards).map fun index =>
    { address := 0, owned := true, writable := true
      data := v3EventShardDiscriminator ++ [3, 0] ++ .ofNat 1 index ++ [0] ++
        .ofNat 32 address ++ replicate 3200 0 }

def newCall : EventCall where
  kind := 202
  payload := replicate 48 7
  timestamp := 11
  payload_length := rfl

/-- Of 130 events the last two have taken the places of the first two. -/
theorem newest_events_kept_new : ∃ accounts',
    appendAll (newAccounts 5) (replicate 130 newCall) = .ok accounts' ∧
    eventSequence accounts' = 130 ∧ eventAt accounts' 0 1 = some (newCall.event 129 5) ∧
    eventAt accounts' 0 2 = some (newCall.event 2 5) := by
  have hz : eventSequence (newAccounts 5) = 0 := by decide +kernel
  have hu : Usable (newAccounts 5) := by
    have hok : (appendEventRecord (newAccounts 5) newCall).isOk = true := by decide +kernel
    cases hf : appendEventRecord (newAccounts 5) newCall with
    | error e => rw [hf] at hok; cases hok
    | ok => exact (appendEventRecord_eq_ok.1 hf).1
  have hl : eventSequence (newAccounts 5) + (replicate 130 newCall).length < 2 ^ 64 := by
    rw [hz, length_replicate]
    decide
  obtain ⟨accounts', hr⟩ := exists_appendAll hu hl
  obtain ⟨hs, hn, -⟩ := newest_events_kept (by decide +kernel) hr
  have hn' := fun j hj => hn j newCall (getElem?_replicate_of_lt hj)
  rw [hz, length_replicate] at hs hn'
  exact ⟨accounts', hr, hs, hn' 129 (by decide) (by decide), hn' 2 (by decide) (by decide)⟩

end EventBytes

/-! ## The record model -/

namespace Market

def eventRing (m : Market) : LogRing EventRecord :=
  .ofRows v3EventShards v3EventsPerShard m.core.globalEventSequence m.events

theorem eventRing_appended (m : Market) (kind : EventKind) (payload : EventPayload)
    (timestamp : ℕ) : (m.appended kind payload timestamp).eventRing =
      m.eventRing.push EventBytes.ringSize
        { kind, sequence := m.core.globalEventSequence, timestamp, payload } :=
  LogRing.ofRows_push (by decide) fun _ _ => rfl

end Market

end Equinox
