import Mathlib.Logic.Relation
import TierCache.Instance.Follow
import TierCache.Proofs.Election.Electorate
import TierCache.Proofs.Replication.Heartbeat
import TierCache.Store.Table

/-!
Instances that hear each other. What one publishes reaches all as text, itself included, and every
step of theirs is a step of the election among their members; so never do two become primary.
-/
namespace TierCache
open Replication

structure Fleet (ι σ : Type) where
  now : Nat
  node : ι → Instance σ
  /-- The payloads that each instance has still to hear, the oldest first. -/
  waiting : ι → List String
  /-- When each instance last published. -/
  lastBeat : ι → Option Nat

namespace Fleet

variable {ι σ : Type} [DecidableEq ι]

/-- Instances that start at the same reading of the wall clock, with whatever engines. -/
def start (c : Cohort ι) (engine : ι → Engine σ) (notifies publishes : ι → Bool)
    (steady : ι → Nat) : Fleet ι σ :=
  ⟨c.start, fun i => .start (engine i) (c.settings i) (notifies i) (publishes i) ⟨c.start, steady i⟩,
    fun _ => [], fun _ => none⟩

/-- Everything that was published has been heard. -/
def Quiet (f : Fleet ι σ) : Prop := ∀ j, f.waiting j = []

/-- Puts an instance in its place; what waits in its outbox is on its way to everyone. -/
def put (f : Fleet ι σ) (i : ι) (n : Instance σ) : Fleet ι σ :=
  { f with
    node := Function.update f.node i { n with outbox := [] }
    waiting := fun j => f.waiting j ++ n.outbox.map (·.record.payload)
    lastBeat := if n.outbox.isEmpty then f.lastBeat else Function.update f.lastBeat i (some f.now) }

/-- An instance acts, or time passes, when all is heard; until then each hears what was published, in
order. Time never comes to where the last heartbeat of an instance, or for lack of one the start, is
older than the timeout. -/
inductive Step (c : Cohort ι) : Fleet ι σ → Fleet ι σ → Prop
  | beat (f : Fleet ι σ) (i : ι) (quiet : f.Quiet) : Step c f (f.put i ((f.node i).beat f.now))
  | checkFailover (f : Fleet ι σ) (i : ι) (quiet : f.Quiet) :
      Step c f (f.put i ((f.node i).checkFailover f.now f.now).2)
  | checkStartup (f : Fleet ι σ) (i : ι) (quiet : f.Quiet) :
      Step c f (f.put i ((f.node i).checkStartup f.now f.now).2)
  | forget (f : Fleet ι σ) (i : ι) (quiet : f.Quiet) :
      Step c f (f.put i ((f.node i).forgetPeers f.now))
  | hear (f : Fleet ι σ) (j : ι) (payload : String) (rest : List String)
      (first : f.waiting j = payload :: rest) :
      Step c f (({ f with waiting := Function.update f.waiting j rest }).put j
        ((f.node j).hear f.now payload))
  | advance (f : Fleet ι σ) (later : Nat) (quiet : f.Quiet) (forward : f.now ≤ later)
      (inRange : later ≤ Text.maxUnsigned)
      (alive : ∀ i, later - (f.lastBeat i).getD c.start ≤ c.timeout) :
      Step c f { f with now := later }

/-! ### The election behind it -/

/-- The instances are the members of an electorate, and the heartbeats are on their way as text. -/
structure Elects (f : Fleet ι σ) (e : Electorate ι) : Prop where
  now : f.now = e.now
  member : ∀ i, (f.node i).member = e.member i
  outbox : ∀ i, (f.node i).outbox = []
  waiting : ∀ j, f.waiting j = (e.queue j).map Heartbeat.payload
  lastBeat : f.lastBeat = e.lastBeat
  readable : ∀ j, ∀ h ∈ e.queue j, h.timestamp ≤ Text.maxUnsigned

namespace Elects

variable {f : Fleet ι σ} {e : Electorate ι}

omit [DecidableEq ι] in
theorem quiet (h : Elects f e) (hquiet : f.Quiet) : e.Quiet := by
  intro j
  simpa [h.waiting j] using hquiet j

/-- What an instance decides goes out as the heartbeat of its member. -/
theorem decide (h : Elects f e) (i : ι) (decision : Option Heartbeat × Member)
    (hreadable : ∀ beat ∈ decision.1, beat.timestamp ≤ Text.maxUnsigned) :
    Elects (f.put i ((f.node i).decide decision).2) (e.put i decision) := by
  obtain ⟨beat, member⟩ := decision
  have houtbox : ((f.node i).decide (beat, member)).2.outbox.map (·.record.payload) =
      beat.toList.map Heartbeat.payload := by
    cases beat <;> simp [Instance.decide, Instance.postBeat, Instance.post, h.outbox]
  have hmember : ((f.node i).decide (beat, member)).2.member = member := by
    cases beat <;> rfl
  have hempty : ((f.node i).decide (beat, member)).2.outbox.isEmpty = !beat.isSome := by
    cases beat <;> simp [Instance.decide, Instance.postBeat, Instance.post, h.outbox]
  refine ⟨h.now, ?_, ?_, ?_, ?_, ?_⟩
  · intro k
    by_cases hk : k = i
    · subst hk
      simp [put, Electorate.put, hmember]
    · simpa [put, Electorate.put, hk] using h.member k
  · intro k
    by_cases hk : k = i
    · subst hk
      simp [put]
    · simpa [put, hk] using h.outbox k
  · intro j
    simp only [put, Electorate.put, houtbox, h.waiting j, List.map_append]
  · simp only [put, Electorate.put, hempty, h.now, h.lastBeat]
    cases beat <;> rfl
  · intro j b hb
    obtain hb | hb := List.mem_append.1 hb
    · exact h.readable j b hb
    · exact hreadable b (by simpa using hb)

end Elects

/-! A promotion is announced with the time of the clock. -/

theorem timestamp_promote (m : Member) (now clock : Nat) :
    ∀ beat ∈ (m.promote now clock).1, beat.timestamp = clock := by
  unfold Member.promote
  split
  · nofun
  · rintro beat ⟨⟩
    rfl

theorem timestamp_checkFailover (m : Member) (now clock : Nat) :
    ∀ beat ∈ (m.checkFailover now clock).1, beat.timestamp = clock := by
  unfold Member.checkFailover
  split
  · exact timestamp_promote m now clock
  · nofun

theorem timestamp_checkStartup (m : Member) (now clock : Nat) :
    ∀ beat ∈ (m.checkStartup now clock).1, beat.timestamp = clock := by
  unfold Member.checkStartup
  split
  · exact timestamp_promote m now clock
  · nofun

variable {c : Cohort ι} {f f' : Fleet ι σ}

/-- Every step of the instances is a step of the election. -/
theorem Elects.step {e : Electorate ι} (h : Elects f e) (horderly : e.Orderly c)
    (hstep : Step c f f') : ∃ e', Electorate.Step c e e' ∧ Elects f' e' := by
  have hnow : f.now ≤ Text.maxUnsigned := h.now ▸ horderly.inRange
  cases hstep with
  | beat i quiet =>
    refine ⟨_, .beat e i (h.quiet quiet), ?_⟩
    rw [← h.member i, ← h.now]
    exact h.decide i (some ((f.node i).member.heartbeat f.now), (f.node i).member)
      (by rintro beat ⟨⟩; exact hnow)
  | checkFailover i quiet =>
    refine ⟨_, .checkFailover e i (h.quiet quiet), ?_⟩
    rw [← h.member i, ← h.now]
    exact h.decide i _ fun beat hbeat => timestamp_checkFailover _ _ _ beat hbeat ▸ hnow
  | checkStartup i quiet =>
    refine ⟨_, .checkStartup e i (h.quiet quiet), ?_⟩
    rw [← h.member i, ← h.now]
    exact h.decide i _ fun beat hbeat => timestamp_checkStartup _ _ _ beat hbeat ▸ hnow
  | forget i quiet =>
    refine ⟨_, .forget e i (h.quiet quiet), ?_⟩
    rw [← h.member i, ← h.now]
    exact h.decide i (none, (f.node i).member.forget f.now) (by simp)
  | hear j payload rest first =>
    rw [h.waiting j] at first
    obtain ⟨beat, left, hqueue, rfl, rfl⟩ := List.map_eq_cons_iff.1 first
    have hread := Heartbeat.ofPayload_payload (h.readable j beat (by simp [hqueue]))
    refine ⟨_, .hear e j beat left hqueue, ?_⟩
    have hrest : Elects { f with waiting := Function.update f.waiting j (left.map Heartbeat.payload) }
        { e with queue := Function.update e.queue j left } := by
      refine { h with waiting := ?_, readable := ?_ }
      · intro k
        by_cases hk : k = j
        · subst hk
          simp
        · simpa [hk] using h.waiting k
      · intro k b hb
        by_cases hk : k = j
        · subst hk
          exact h.readable k b (by simp_all)
        · exact h.readable k b (by simpa [hk] using hb)
    have hhear : (f.node j).hear f.now beat.payload =
        ((f.node j).decide ((f.node j).member.hear beat f.now)).2 := by
      rw [Instance.hear, hread]
    have hmember : (e.member j).hear beat e.now = (f.node j).member.hear beat f.now := by
      rw [h.member j, h.now]
    rw [hhear, hmember]
    exact hrest.decide j ((f.node j).member.hear beat f.now) fun b hb =>
      timestamp_checkFailover _ _ _ b hb ▸ hnow
  | advance later quiet forward inRange alive =>
    refine ⟨_, .advance e later (h.quiet quiet) (h.now ▸ forward) inRange (h.lastBeat ▸ alive), ?_⟩
    exact { h with now := rfl }

/-- A run of steps. -/
abbrev Run (c : Cohort ι) : Fleet ι σ → Fleet ι σ → Prop := Relation.ReflTransGen (Step c)

theorem Elects.run {e : Electorate ι} (h : Elects f e) (he : Electorate.Reachable c e)
    (hrun : Run c f f') : ∃ e', Electorate.Reachable c e' ∧ Elects f' e' ∧
      ∀ p, (e.member p).isPrimary = true → (e'.member p).isPrimary = true := by
  induction hrun with
  | refl => exact ⟨e, he, h, fun _ => id⟩
  | tail _ hstep ih =>
    obtain ⟨e₁, he₁, h₁, hprimary⟩ := ih
    obtain ⟨e₂, hstep₂, h₂⟩ := h₁.step he₁.orderly hstep
    exact ⟨e₂, he₁.step hstep₂, h₂, fun p hp => hstep₂.isPrimary (hprimary p hp)⟩

omit [DecidableEq ι] in
/-- The start of the instances is the start of the election. -/
theorem Elects.start (c : Cohort ι) (engine : ι → Engine σ) (notifies publishes : ι → Bool)
    (steady : ι → Nat) : Elects (.start c engine notifies publishes steady) (.join c) :=
  ⟨rfl, fun _ => rfl, fun _ => rfl, fun _ => rfl, rfl, fun _ _ hh => absurd hh List.not_mem_nil⟩

/-- Of instances that hear each other no two ever become primary, be it at once or one after the
other. -/
theorem one_primary (engine : ι → Engine σ) (notifies publishes : ι → Bool) (steady : ι → Nat)
    (hrun : Run c (.start c engine notifies publishes steady) f) (hlater : Run c f f') {p q : ι}
    (hp : (f.node p).member.isPrimary = true) (hq : (f'.node q).member.isPrimary = true) :
    p = q := by
  have hstart := Elects.start c engine notifies publishes steady
  obtain ⟨e, he, hf, -⟩ := hstart.run .join hrun
  obtain ⟨e', he', hf', hprimary⟩ := hf.run he hlater
  rw [hf.member] at hp
  rw [hf'.member] at hq
  exact he'.orderly.unique p q (hprimary p hp) hq

/-- Two instances that look for a primary right after the start. -/
def pair : Cohort Bool where
  settings b := ⟨true, if b then "b" else "a", false, 5, 10, 0, true, "events", "health"⟩
  start := 100
  timeout := 10
  enabled _ := rfl
  secondary _ := rfl
  common _ := rfl
  distinct {i j} h := by revert i j; decide
  inRange := by decide

/-- The first to look becomes primary, and the other finds it when it looks. -/
theorem one_primary_pair :
    ∃ f f' : Fleet Bool Table,
      Run pair (.start pair (fun _ => Engine.fresh Table.empty 1 "main") (fun _ => false) (fun _ => false)
        fun _ => 0) f ∧
      Run pair f f' ∧ (f.node true).member.isPrimary = true ∧
      ∀ q, (f'.node q).member.isPrimary = true → true = q := by
  let f₀ : Fleet Bool Table := .start pair (fun _ => Engine.fresh Table.empty 1 "main")
    (fun _ => false) (fun _ => false) fun _ => 0
  let f₁ := f₀.put true ((f₀.node true).checkStartup f₀.now f₀.now).2
  let payload := (Heartbeat.mk "b" true 100).payload
  let f₂ := ({ f₁ with waiting := Function.update f₁.waiting true [] }).put true
    ((f₁.node true).hear f₁.now payload)
  let f₃ := ({ f₂ with waiting := Function.update f₂.waiting false [] }).put false
    ((f₂.node false).hear f₂.now payload)
  let f₄ := f₃.put false ((f₃.node false).checkStartup f₃.now f₃.now).2
  have hlook : Step pair f₀ f₁ := .checkStartup f₀ true fun _ => rfl
  have hitself : Step pair f₁ f₂ := .hear f₁ true payload [] rfl
  have hother : Step pair f₂ f₃ := .hear f₂ false payload [] (by decide +kernel)
  have hquiet : f₃.Quiet := by unfold Quiet; decide +kernel
  have hagain : Step pair f₃ f₄ := .checkStartup f₃ false hquiet
  have hrun := Relation.ReflTransGen.single hlook
  have hlater := ((Relation.ReflTransGen.single hitself).tail hother).tail hagain
  exact ⟨f₁, f₄, hrun, hlater, rfl, fun q hq => one_primary _ _ _ _ hrun hlater rfl hq⟩

end Fleet
end TierCache
