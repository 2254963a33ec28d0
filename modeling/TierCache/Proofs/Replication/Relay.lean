import TierCache.Proofs.Flat.Replay
import TierCache.Proofs.Flat.Simulation

/-!
What becomes of the signals of an engine: a primary publishes the mutations among them in their
order, a secondary publishes nothing.
-/
namespace TierCache
open Replication

/-- The mutation that a signal tells of. -/
def Signal.mutation? : Signal → Option Mutation
  | .mutation m => some m
  | .change .. => none

/-- Followers pass over changes. -/
theorem Flat.replay_mutations (f : Flat) (now : Nat) (signals : List Signal) :
    f.replay now (signals.map Signal.notice) =
      f.replay now ((signals.filterMap Signal.mutation?).map Mutation.notice) := by
  induction signals generalizing f with
  | nil => rfl
  | cons s rest ih =>
    cases s with
    | mutation m =>
      have hmutations : (Signal.mutation m :: rest).filterMap Signal.mutation? =
          m :: rest.filterMap Signal.mutation? := rfl
      rw [List.map_cons, replay_cons, ih, hmutations, List.map_cons, replay_cons m.notice]
      rfl
    | change region key kind =>
      rw [List.map_cons, replay_cons, ih]
      rfl

theorem Mirrors.relayed {σ : Type} {stands : σ → Table → Prop} {e : Engine σ} {f : Flat}
    (h : Mirrors stands e f) : Mirrors stands { e with signals := [] } { f with told := [] } :=
  ⟨h.stored, h.known, h.copied, h.defaultRegion, h.hits, h.misses, rfl⟩

/-- An event with the reading of the clock at which it was published. -/
structure Posted where
  reading : Nat
  payload : String
  deriving DecidableEq

/-- The event of a mutation that was published. -/
structure Posting where
  id : String
  reading : Nat
  mutation : Mutation

namespace Posting

def posted (p : Posting) : Posted := ⟨p.reading, (Event.ofMutation p.id p.reading p.mutation).payload⟩

def notice (p : Posting) : Notice := p.mutation.notice

end Posting

namespace Instance

variable {σ : Type} {i : Instance σ} {now : Nat}

/-- What the instance published now. -/
def posted (i : Instance σ) (now : Nat) : List Posted :=
  i.outbox.map fun frame => ⟨now, frame.record.payload⟩

theorem relay_keeps (s : Signal) :
    (relay now i s).engine = i.engine ∧ (relay now i s).member = i.member ∧
      (relay now i s).publishes = i.publishes := by
  cases s with
  | mutation m =>
    simp only [relay, publish]
    split <;> exact ⟨rfl, rfl, rfl⟩
  | change region key kind =>
    simp only [relay, notify]
    split <;> exact ⟨rfl, rfl, rfl⟩

theorem relay_foldl_keeps (signals : List Signal) :
    (signals.foldl (relay now) i).engine = i.engine ∧
      (signals.foldl (relay now) i).member = i.member ∧
      (signals.foldl (relay now) i).publishes = i.publishes := by
  induction signals generalizing i with
  | nil => exact ⟨rfl, rfl, rfl⟩
  | cons s rest ih =>
    obtain ⟨hengine, hmember, hpublishes⟩ := @relay_keeps _ i now s
    obtain ⟨hengine', hmember', hpublishes'⟩ := @ih (relay now i s)
    exact ⟨hengine'.trans hengine, hmember'.trans hmember, hpublishes'.trans hpublishes⟩

/-- What an operation told is passed on, and nothing else is done to the engine. -/
theorem engine_run {α : Type} (i : Instance σ) (now : Nat) (op : Engine σ → α × Engine σ) :
    (i.run now op).2.engine = { (op i.engine).2 with signals := [] } :=
  (relay_foldl_keeps (i := { i with engine := { (op i.engine).2 with signals := [] } }) _).1

/-- A primary publishes the mutations among the signals, each under the reading of now. -/
theorem relay_foldl_posted (hpublishes : i.publishes = true) (hrole : i.member.isPrimary = true)
    (signals : List Signal) :
    ∃ ps : List Posting, (∀ p ∈ ps, p.reading = now) ∧
      ps.map Posting.mutation = signals.filterMap Signal.mutation? ∧
      (signals.foldl (relay now) i).posted now = i.posted now ++ ps.map Posting.posted := by
  induction signals generalizing i with
  | nil => exact ⟨[], nofun, rfl, by simp⟩
  | cons s rest ih =>
    obtain ⟨-, hmember, hkept⟩ := @relay_keeps _ i now s
    obtain ⟨ps, hreading, hmutations, hposted⟩ := ih (hkept ▸ hpublishes) (hmember ▸ hrole)
    cases s with
    | mutation m =>
      refine ⟨⟨Text.uuid i.events, now, m⟩ :: ps, ?_, ?_, ?_⟩
      · rw [List.forall_mem_cons]
        exact ⟨rfl, hreading⟩
      · rw [List.map_cons, hmutations]
        rfl
      · have hfirst : (relay now i (.mutation m)).posted now =
            i.posted now ++ [Posting.posted ⟨Text.uuid i.events, now, m⟩] := by
          simp only [relay, publish, hpublishes, hrole, Bool.and_self, if_true, posted, post,
            List.map_append]
          rfl
        rw [List.foldl_cons, hposted, hfirst, List.append_assoc]
        rfl
    | change region key kind =>
      have hfirst : (relay now i (.change region key kind)).posted now = i.posted now := by
        simp only [relay, notify]
        split <;> rfl
      refine ⟨ps, hreading, hmutations, ?_⟩
      rw [List.foldl_cons, hposted, hfirst]

/-- A secondary publishes nothing. -/
theorem relay_foldl_silent (hrole : i.member.isPrimary = false) (signals : List Signal) :
    (signals.foldl (relay now) i).outbox = i.outbox ∧
      (signals.foldl (relay now) i).events = i.events := by
  induction signals generalizing i with
  | nil => exact ⟨rfl, rfl⟩
  | cons s rest ih =>
    obtain ⟨-, hmember, -⟩ := @relay_keeps _ i now s
    obtain ⟨houtbox, hevents⟩ := ih (hmember ▸ hrole)
    have hfirst : (relay now i s).outbox = i.outbox ∧ (relay now i s).events = i.events := by
      cases s with
      | mutation m => simp [relay, publish, hrole]
      | change region key kind =>
        simp only [relay, notify]
        split <;> exact ⟨rfl, rfl⟩
    exact ⟨houtbox.trans hfirst.1, hevents.trans hfirst.2⟩

end Instance
end TierCache
