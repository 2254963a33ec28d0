import TierCache.Instance.Follow
import TierCache.Proofs.Flat.Basic
import TierCache.Proofs.Json.Reread
import TierCache.Proofs.Replication.Heartbeat
import TierCache.Proofs.Value.Record

/-!
An event says to a follower what the mutation did: applying the payload runs the same operation on
the follower's engine.
-/
namespace TierCache
open Json Replication

/-- An event can carry the notice: the value is one that JSON can hold, and times and seconds are in
the range of their integers. -/
def Notice.Encodable : Notice → Prop
  | .set _ _ value expiresAt => value.Encodable ∧ ∀ t ∈ expiresAt, t ≤ Text.maxUnsigned
  | .expire _ _ seconds => 0 < seconds ∧ seconds < Text.signedLimit
  | _ => True

namespace Replication.Event

theorem name_tag (k : EventKind) : Raw.name EventKind.tags (.str (some k.tag)) = .ok k := by
  cases k <;> rfl

theorem optional_dataType (t : Option DataType) :
    Raw.optional (Raw.name DataType.tags) (written (.opt (fun t => .str t.tag) t)) = .ok t := by
  cases t with
  | none => rfl
  | some t =>
    refine (congrArg (Except.map some) (Value.name_tag t)).trans rfl

/-- An event is read as it was sent. -/
theorem ofPayload_payload {e : Event}
    (hvalue : Raw.optional (anyValue 126) (written (e.value.getD .null)) = .ok e.value)
    (hexpiry : ∀ t ∈ e.expiresAt, t ≤ Text.maxUnsigned) (ht : e.timestamp ≤ Text.maxUnsigned) :
    ofPayload e.payload = .ok e := by
  have hnodup : fields.Nodup := by decide
  have hrecord := @Raw.record_named [("eventId", written (.str e.id)),
    ("eventType", written (.str e.kind.tag)), ("region", written (.str e.region)),
    ("key", written (.str e.key)), ("value", written (e.value.getD .null)),
    ("dataType", written (.opt (fun t => .str t.tag) e.dataType)),
    ("expiresAt", written (.opt .nat e.expiresAt)), ("timestamp", written (.nat e.timestamp))]
    hnodup 8
  have hread : ofRaw Raw.maxDepth (written e.toJson) = .ok e := by
    refine (congrArg (· >>= _) hrecord).trans ?_
    have hkind : Raw.name EventKind.tags (written (.str e.kind.tag)) = .ok e.kind := name_tag _
    simp only [bind, Except.bind, List.map, Raw.needed, Raw.orElse, Raw.maxDepth, Nat.reduceSub,
      hvalue, hkind, optional_dataType, optional_unsigned hexpiry, unsigned_written ht]
    rfl
  rw [ofPayload, payload, ofText_render, hread]

/-- The event that sets an entry is read as it was sent, however the value was written. -/
theorem ofPayload_ofSet {e : Entry} {value : Json} (held : e.value.Written value)
    (hexpiry : ∀ t ∈ e.expiresAt, t ≤ Text.maxUnsigned) {reading : Nat}
    (hreading : reading ≤ Text.maxUnsigned) (id : String) :
    ofPayload (ofSet id reading e value).payload = .ok (ofSet id reading e value) := by
  have hread := value?_tree faithful_floatNumeral (held.fits 123)
  have hagain : anyValue 126 (written value.sorted) = .ok value.sorted := by
    rw [anyValue, Raw.value?_written _ hread]
  obtain ⟨contents⟩ := held
  exact ofPayload_payload ((congrArg (Except.map some) hagain).trans rfl) hexpiry hreading

theorem valueToSet_ofSet {e : Entry} {value : Json} (h : e.value.Encodable)
    (held : e.value.Written value) (id : String) (now : Nat) :
    (ofSet id now e value).valueToSet = .ok e.value := by
  have hback : Value.ofRaw Raw.maxDepth value.sorted.raw = .ok e.value :=
    Value.ofRaw_sorted h held 124
  simp only [valueToSet, ofSet, hback]

theorem ofPayload_ofMutation {m : Mutation} (h : m.notice.Encodable) {reading : Nat}
    (hreading : reading ≤ Text.maxUnsigned) (id : String) :
    ofPayload (ofMutation id reading m).payload = .ok (ofMutation id reading m) := by
  have hnever : ∀ t ∈ (none : Option Nat), t ≤ Text.maxUnsigned := by simp
  cases m with
  | set entry => exact ofPayload_ofSet entry.value.written_toJson h.2 hreading id
  | expire region key seconds =>
    obtain ⟨hpositive, hseconds⟩ := h
    obtain ⟨n, rfl⟩ := Int.eq_ofNat_of_zero_le hpositive.le
    have hrange : n ≤ Text.maxUnsigned := by
      simp only [Text.signedLimit, Text.maxUnsigned] at hseconds ⊢
      omega
    have hread : Raw.optional (anyValue 126) (written (.int n)) = .ok (some (.int n)) := by
      have hany : anyValue 126 (written (.int n)) = .ok (.int n) := by
        rw [anyValue, written, tree, Raw.value?, ofNumeral?_nat hrange]
      exact (congrArg (Except.map some) hany).trans rfl
    exact ofPayload_payload (e := ofMutation id reading (.expire region key n)) hread hnever hreading
  | delete region key =>
    exact ofPayload_payload (e := ofMutation id reading (.delete region key)) rfl hnever hreading
  | deleteRegion region =>
    exact ofPayload_payload (e := ofMutation id reading (.deleteRegion region)) rfl hnever hreading

theorem secondsToLive_int {e : Event} {n : Int} (hvalue : e.value = some (.int n))
    (h : n < Text.signedLimit) : e.secondsToLive = .ok n := by
  rw [secondsToLive, hvalue]
  dsimp only
  rw [if_pos h]

end Replication.Event

/-- The calls by which a follower does what a notice tells. -/
def Notice.calls (now : Nat) : Notice → List Call
  | .set region key value expiresAt => [⟨now, _, .setValue region key value expiresAt⟩]
  | .delete region key => [⟨now, _, .delete region [key]⟩]
  | .expire region key seconds => [⟨now, _, .expire region key seconds⟩]
  | .deleteRegion region => [⟨now, _, .deleteRegion region⟩]
  | .change .. => []

namespace Instance

variable {σ : Type} [Store σ] {i : Instance σ} {now : Nat}

theorem follow_of_read (hrole : i.member.isPrimary = false) {payload : String} {e : Event}
    (h : Event.ofPayload payload = .ok e) : i.follow now payload = (i.apply now e).2 := by
  rw [follow, hrole, h]
  rfl

theorem apply_set {e : Event} {v : Value} (hkind : e.kind = .set) (hvalue : e.valueToSet = .ok v) :
    (i.apply now e).2 = (i.run now fun engine => ((), engine.performAll
      [⟨now, _, .setValue e.region e.key v e.expiresAt⟩])).2 := by
  rw [apply, hkind]
  dsimp only
  rw [hvalue]
  rfl

theorem apply_expire {e : Event} {seconds : Int} (hkind : e.kind = .expire)
    (hseconds : e.secondsToLive = .ok seconds) :
    (i.apply now e).2 = (i.run now fun engine => ((), engine.performAll
      [⟨now, _, .expire e.region e.key seconds⟩])).2 := by
  rw [apply, hkind]
  dsimp only
  rw [hseconds]
  rfl

/-- A follower does what the event of a mutation tells. -/
theorem follow_payload (hrole : i.member.isPrimary = false) {m : Mutation} (h : m.notice.Encodable)
    {reading : Nat} (hreading : reading ≤ Text.maxUnsigned) (id : String) :
    i.follow now (Event.ofMutation id reading m).payload =
      (i.run now fun engine => ((), engine.performAll (m.notice.calls now))).2 := by
  rw [follow_of_read hrole (Event.ofPayload_ofMutation h hreading id)]
  cases m with
  | set entry =>
    exact apply_set rfl (Event.valueToSet_ofSet h.1 entry.value.written_toJson id reading)
  | expire region key seconds => exact apply_expire rfl (Event.secondsToLive_int rfl h.2)
  | delete region key => rfl
  | deleteRegion region => rfl

end Instance
end TierCache
