import TierCache.Proofs.Flat.Replies
import TierCache.Proofs.Replication.Relay
import TierCache.Protocol.Execute

/-!
Commands with sweeps in between and without. A sweep takes away only what nobody sees any more, so that
replies that go by what is seen are the same. A deletion, however, counts what it removes, be it seen or
left over from before the next sweep.
-/
namespace TierCache

namespace Command

/-- Whether a command is for keys, one by one, and their contents. -/
def onKeys : Command → Bool
  | .ping _ | .echo _ | .publish .. | .deleteRegion _ | .role | .info => false
  | _ => true

/-- The keys that a command removes. -/
def removed? : Command → Option (List String)
  | .delete names => some names
  | .expire key seconds => if seconds.toInt ≤ 0 then some [key] else none
  | _ => none

/-- What a removal of as many keys is answered with. -/
def removalReply : Command → Nat → Reply
  | .expire .., n => .ofBool (0 < n)
  | _, n => .count n

/-- Whatever the tokens make up, it is for keys. -/
def OnKeys (tokens : List String) : Prop :=
  ∀ region c, ofTokens tokens = .ok (region, c) → c.onKeys = true

end Command

namespace Engine

variable {σ : Type} [Store σ]

/-- How many of the names are those of keys that are there for a reader. -/
def shown (e : Engine σ) (now : Nat) (region : String) (names : List String) : Nat :=
  (names.toFinset.filter fun key => (e.perform now (.read region key)).1.isSome).card

/-- How many of the names are those of keys that are known and not there for a reader any more. -/
def leftOver (e : Engine σ) (now : Nat) (region : String) (names : List String) : Nat :=
  (names.toFinset.filter fun key => (e.regionD region).known.contains key = true ∧
    (e.perform now (.read region key)).1 = none).card

end Engine

namespace Instance

variable {σ : Type} [Store σ]

/-- What happens to an instance: a command, or a sweep. -/
inductive Step
  | command (clock : Clock) (tokens : List String)
  | sweep (now : Nat)

namespace Step

def now : Step → Nat
  | command clock _ => clock.wall
  | sweep now => now

def isCommand : Step → Bool
  | command .. => true
  | sweep _ => false

def OnKeys : Step → Prop
  | command _ tokens => Command.OnKeys tokens
  | sweep _ => True

end Step

def step (i : Instance σ) : Step → Instance σ
  | .command clock tokens => (i.execute clock tokens).2
  | .sweep now => (i.run now (·.sweep now)).2

/-- The instance after a run of commands and sweeps. -/
def serve (i : Instance σ) (steps : List Step) : Instance σ := steps.foldl step i

/-- A command for keys is one operation of the engine; the reply goes by what is seen, unless the
command removes keys. -/
theorem perform_answers (clock : Clock) (region : String) {c : Command} (hc : c.onKeys = true) :
    ∃ (α : Type) (op : Operation α) (reply : α → Reply),
      (∀ i : Instance σ, i.perform clock region c =
        i.answer clock.wall reply (·.perform clock.wall op)) ∧
      (c.removed? = none → op.goesBySight = true) := by
  cases c with
  | set key text seconds =>
    exact ⟨_, .setValue region key (.string text) (seconds.map (Engine.secondsAfter clock.wall)), _,
      fun _ => rfl, fun _ => rfl⟩
  | get key => exact ⟨_, .get region key, _, fun _ => rfl, fun _ => rfl⟩
  | delete names => exact ⟨_, .delete region names, _, fun _ => rfl, nofun⟩
  | countLive names => exact ⟨_, .countLive region names, _, fun _ => rfl, fun _ => rfl⟩
  | expire key seconds =>
    refine ⟨_, .expire region key seconds.toInt, _, fun _ => rfl, fun hnone => ?_⟩
    have hpositive : ¬seconds.toInt ≤ 0 := fun hpast => by
      rw [Command.removed?, if_pos hpast] at hnone
      cases hnone
    exact decide_eq_true (Int.not_le.mp hpositive)
  | ttl key => exact ⟨_, .ttl region key, _, fun _ => rfl, fun _ => rfl⟩
  | persist key => exact ⟨_, .persist region key, _, fun _ => rfl, fun _ => rfl⟩
  | keys pattern => exact ⟨_, .keys region pattern, _, fun _ => rfl, fun _ => rfl⟩
  | typeOf key =>
    exact ⟨_, .typeOf region key, fun t => .simple ((t.map DataType.name).getD "none"),
      fun _ => rfl, fun _ => rfl⟩
  | scan cursor pattern count =>
    exact ⟨_, .scan region cursor pattern count,
      fun page => .nested [.text (toString page.cursor), .array page.keys],
      fun _ => rfl, fun _ => rfl⟩
  | incrBy key delta => exact ⟨_, .typed region key (.incrBy delta), _, fun _ => rfl, fun _ => rfl⟩
  | append key suffix => exact ⟨_, .typed region key (.append suffix), _, fun _ => rfl, fun _ => rfl⟩
  | hset key pairs => exact ⟨_, .typed region key (.hset pairs), _, fun _ => rfl, fun _ => rfl⟩
  | hget key field => exact ⟨_, .typed region key (.hget field), _, fun _ => rfl, fun _ => rfl⟩
  | hgetAll key => exact ⟨_, .typed region key .hgetAll, _, fun _ => rfl, fun _ => rfl⟩
  | hdel key fields => exact ⟨_, .typed region key (.hdel fields), _, fun _ => rfl, fun _ => rfl⟩
  | pushHead key items => exact ⟨_, .typed region key (.pushHead items), _, fun _ => rfl, fun _ => rfl⟩
  | pushTail key items => exact ⟨_, .typed region key (.pushTail items), _, fun _ => rfl, fun _ => rfl⟩
  | popHead key => exact ⟨_, .typed region key .popHead, _, fun _ => rfl, fun _ => rfl⟩
  | popTail key => exact ⟨_, .typed region key .popTail, _, fun _ => rfl, fun _ => rfl⟩
  | listRange key start stop =>
    exact ⟨_, .typed region key (.listRange start stop), _, fun _ => rfl, fun _ => rfl⟩
  | listLength key => exact ⟨_, .typed region key .listLength, _, fun _ => rfl, fun _ => rfl⟩
  | setAdd key members => exact ⟨_, .typed region key (.setAdd members), _, fun _ => rfl, fun _ => rfl⟩
  | setMembers key => exact ⟨_, .typed region key .setMembers, _, fun _ => rfl, fun _ => rfl⟩
  | setRemove key members =>
    exact ⟨_, .typed region key (.setRemove members), _, fun _ => rfl, fun _ => rfl⟩
  | setContains key member =>
    exact ⟨_, .typed region key (.setContains member), _, fun _ => rfl, fun _ => rfl⟩
  | sortedAdd key members =>
    exact ⟨_, .typed region key (.sortedAdd members), _, fun _ => rfl, fun _ => rfl⟩
  | sortedRange key start stop withScores =>
    exact ⟨_, .typed region key (.sortedRange start stop), _, fun _ => rfl, fun _ => rfl⟩
  | sortedRemove key members =>
    exact ⟨_, .typed region key (.sortedRemove members), _, fun _ => rfl, fun _ => rfl⟩
  | sortedScore key member =>
    exact ⟨_, .typed region key (.sortedScore member), _, fun _ => rfl, fun _ => rfl⟩
  | ping | echo | publish | deleteRegion | role | info => cases hc

/-! ### Two runs -/

/-- Two instances whose engines mirror flat caches that look alike at a reading of the clock. -/
def Alike (stands : σ → Table → Prop) (now : Nat) (i j : Instance σ) : Prop :=
  ∃ f g, Mirrors stands i.engine f ∧ Mirrors stands j.engine g ∧ Flat.Alike now f g

variable {stands : σ → Table → Prop} (reliable : Reliable stands)
include reliable

theorem run_mirrors {α : Type} {i : Instance σ} {f : Flat} (h : Mirrors stands i.engine f) (now : Nat)
    (op : Operation α) :
    Mirrors stands (i.run now (·.perform now op)).2.engine { (f.perform now op).2 with told := [] } := by
  rw [engine_run]
  exact (Mirrors.perform reliable now op h).2.relayed

theorem shown_eq {e : Engine σ} {f : Flat} (h : Mirrors stands e f) (now : Nat) (region : String)
    (names : List String) : e.shown now region names =
      (names.toFinset.filter fun key => (f.visible? now region key).isSome).card := by
  have hread (key : String) : (e.perform now (.read region key)).1 = f.visible? now region key :=
    (Mirrors.perform reliable now (.read region key) h).1
  simp only [Engine.shown, hread]

/-- A removal counts the keys that are shown and those that are left over. -/
theorem removal_reply {i : Instance σ} {f : Flat} (h : Mirrors stands i.engine f) (clock : Clock)
    (region : String) {c : Command} {names : List String} (hc : c.removed? = some names) :
    (i.perform clock region c).1 = c.removalReply
      (i.engine.shown clock.wall region names + i.engine.leftOver clock.wall region names) := by
  have hread (key : String) :
      (i.engine.perform clock.wall (.read region key)).1 = f.visible? clock.wall region key :=
    (Mirrors.perform reliable clock.wall (.read region key) h).1
  have hcount : (f.delete region names).1 =
      i.engine.shown clock.wall region names + i.engine.leftOver clock.wall region names := by
    simp only [f.delete_count_visible clock.wall, Engine.shown, Engine.leftOver, hread, h.known]
  rw [← hcount]
  cases c with
  | delete keys =>
    obtain rfl : keys = names := Option.some.inj hc
    exact congrArg Reply.count (Mirrors.perform reliable clock.wall (.delete region keys) h).1
  | expire key seconds =>
    have hpast : seconds.toInt ≤ 0 := by
      by_contra hpositive
      rw [Command.removed?, if_neg hpositive] at hc
      cases hc
    rw [Command.removed?, if_pos hpast] at hc
    obtain rfl : [key] = names := Option.some.inj hc
    have hreply : (i.engine.perform clock.wall (.expire region key seconds.toInt)).1 =
        (f.expire clock.wall region key seconds.toInt).1 :=
      (Mirrors.perform reliable clock.wall (.expire region key seconds.toInt) h).1
    rw [Flat.expire, if_pos hpast] at hreply
    exact congrArg (replyTo Reply.ofBool) hreply
  | _ => cases hc

/-- A sweep leaves nothing over. -/
theorem leftOver_swept {i : Instance σ} {f : Flat} (h : Mirrors stands i.engine f) (now : Nat)
    (region : String) (names : List String) :
    (i.step (.sweep now)).engine.leftOver now region names = 0 := by
  have hswept : Mirrors stands (i.step (.sweep now)).engine { (f.sweep now).2 with told := [] } :=
    run_mirrors reliable h now .sweep
  rw [Engine.leftOver, Finset.card_eq_zero, Finset.filter_eq_empty_iff]
  rintro key - ⟨hknown, hunseen⟩
  have hread : ((i.step (.sweep now)).engine.perform now (.read region key)).1 =
      (f.sweep now).2.visible? now region key :=
    (Mirrors.perform reliable now (.read region key) hswept).1
  have hrow : ((f.sweep now).2.row? region key).isSome = true := by
    rwa [hswept.known] at hknown
  obtain ⟨row, hrow⟩ := Option.isSome_iff_exists.mp hrow
  have hkept := hrow
  rw [Flat.sweep, Flat.row?_keep, Option.filter_eq_some_iff] at hkept
  rw [hread, Flat.visible?, hrow, Option.filter_some, if_pos hkept.2] at hunseen
  cases hunseen

namespace Alike

variable {i j : Instance σ} {now later : Nat}

theorem shown_eq (h : Alike stands now i j) (region : String) (names : List String) :
    i.engine.shown now region names = j.engine.shown now region names := by
  obtain ⟨f, g, hi, hj, halike⟩ := h
  have hsome (key : String) :
      (f.visible? now region key).isSome = (g.visible? now region key).isSome := by
    obtain ⟨hf, hg⟩ | ⟨row, row', hf, hg, -, -⟩ := halike.visible region key
    · rw [hf, hg]
    · rw [hf, hg, Option.isSome_some, Option.isSome_some]
  rw [Instance.shown_eq reliable hi, Instance.shown_eq reliable hj]
  simp only [hsome]

/-- A sweep on one side is not seen. -/
theorem swept (h : Alike stands now i j) (hle : now ≤ later) :
    Alike stands later (i.step (.sweep later)) j := by
  obtain ⟨f, g, hi, hj, halike⟩ := h
  have hswept : Flat.Alike later (f.sweep later).2 g :=
    (Flat.Alike.sweep f).symm.trans (halike.later hle)
  exact ⟨_, g, run_mirrors reliable hi later .sweep, hj, hswept.retold [] g.told⟩

/-- The same command on both sides. Unless it removes keys, the replies are the same. -/
theorem execute (h : Alike stands now i j) {clock : Clock} (hle : now ≤ clock.wall)
    {tokens : List String} (htokens : Command.OnKeys tokens) :
    Alike stands clock.wall (i.execute clock tokens).2 (j.execute clock tokens).2 ∧
      ((∀ region c, Command.ofTokens tokens = .ok (region, c) → c.removed? = none) →
        (i.execute clock tokens).1 = (j.execute clock tokens).1) := by
  obtain ⟨f, g, hi, hj, halike⟩ := h
  have hlater := halike.later hle
  unfold Instance.execute
  cases hparse : Command.ofTokens tokens with
  | error err => exact ⟨⟨f, g, hi, hj, hlater⟩, fun _ => rfl⟩
  | ok parsed =>
    obtain ⟨region, c⟩ := parsed
    have hregion : i.engine.defaultRegion = j.engine.defaultRegion := by
      rw [hi.defaultRegion, hj.defaultRegion, halike.defaultRegion]
    dsimp only
    rw [← hregion]
    obtain ⟨α, op, reply, hperform, hsight⟩ :=
      perform_answers (σ := σ) clock (region.getD i.engine.defaultRegion) (htokens region c hparse)
    rw [hperform i, hperform j]
    refine ⟨⟨_, _, run_mirrors reliable hi clock.wall op, run_mirrors reliable hj clock.wall op,
      (hlater.perform op).retold [] []⟩, fun hkept => congrArg reply ?_⟩
    calc (i.engine.perform clock.wall op).1
        = (f.perform clock.wall op).1 := (Mirrors.perform reliable clock.wall op hi).1
      _ = (g.perform clock.wall op).1 := hlater.reply (hsight (hkept region c rfl))
      _ = (j.engine.perform clock.wall op).1 := (Mirrors.perform reliable clock.wall op hj).1.symm

/-- A run on one side, and the commands of the run alone on the other. -/
theorem serve {steps : List Step} (h : Alike stands now i j) (hsteps : ∀ step ∈ steps, step.OnKeys)
    (hclock : (now :: (steps.map Step.now ++ [later])).Pairwise (· ≤ ·)) :
    Alike stands later (i.serve steps) (j.serve (steps.filter Step.isCommand)) := by
  induction steps generalizing i j now with
  | nil =>
    obtain ⟨f, g, hi, hj, halike⟩ := h
    rw [List.map_nil, List.nil_append, List.pairwise_pair] at hclock
    exact ⟨f, g, hi, hj, halike.later hclock⟩
  | cons step rest ih =>
    rw [List.map_cons, List.cons_append, List.pairwise_cons] at hclock
    rw [List.forall_mem_cons] at hsteps
    have hle := hclock.1 step.now (.head _)
    cases step with
    | command clock tokens => exact ih (h.execute reliable hle hsteps.1).1 hsteps.2 hclock.2
    | sweep reading => exact ih (h.swept reliable hle) hsteps.2 hclock.2

end Alike

/-- From an empty store on, and unless the clock is set back, sweeps in between are not to be told from
the replies to commands for keys, but for removals. These count the keys that are shown, which are the
same with the sweeps and without, and the keys that are left over, expired and not yet swept. -/
theorem execute_swept {store : σ} (hstore : stands store .empty) (capacity : Nat)
    (defaultRegion : String) (node : Instance σ) {steps : List Step}
    (hsteps : ∀ step ∈ steps, step.OnKeys) {clock : Clock}
    (hclock : (steps.map Step.now ++ [clock.wall]).Pairwise (· ≤ ·)) {tokens : List String}
    (htokens : Command.OnKeys tokens) :
    let start : Instance σ := { node with engine := .fresh store capacity defaultRegion }
    let i := start.serve steps
    let j := start.serve (steps.filter Step.isCommand)
    ((∀ region c, Command.ofTokens tokens = .ok (region, c) → c.removed? = none) →
      (i.execute clock tokens).1 = (j.execute clock tokens).1) ∧
    ∀ region c names, Command.ofTokens tokens = .ok (region, c) → c.removed? = some names →
      let home := region.getD i.engine.defaultRegion
      i.engine.shown clock.wall home names = j.engine.shown clock.wall home names ∧
      (i.execute clock tokens).1 = c.removalReply
        (i.engine.shown clock.wall home names + i.engine.leftOver clock.wall home names) ∧
      (j.execute clock tokens).1 = c.removalReply
        (j.engine.shown clock.wall home names + j.engine.leftOver clock.wall home names) ∧
      (i.step (.sweep clock.wall)).engine.leftOver clock.wall home names = 0 := by
  intro start i j
  have hstart : Alike stands 0 start start :=
    have hfresh := Mirrors.fresh hstore capacity defaultRegion
    ⟨_, _, hfresh, hfresh, .refl _⟩
  have hclock' : (0 :: (steps.map Step.now ++ [clock.wall])).Pairwise (· ≤ ·) :=
    List.pairwise_cons.mpr ⟨fun _ _ => Nat.zero_le _, hclock⟩
  have h : Alike stands clock.wall i j := hstart.serve reliable hsteps hclock'
  refine ⟨(h.execute reliable (Nat.le_refl _) htokens).2, fun region c names hparse hremoved => ?_⟩
  intro home
  obtain ⟨f, g, hi, hj, halike⟩ := h
  have hregion : j.engine.defaultRegion = i.engine.defaultRegion := by
    rw [hi.defaultRegion, hj.defaultRegion, halike.defaultRegion]
  have hexecute (k : Instance σ) (hk : k.engine.defaultRegion = i.engine.defaultRegion) :
      k.execute clock tokens = k.perform clock home c := by
    rw [Instance.execute, hparse]
    dsimp only
    rw [hk]
  refine ⟨Alike.shown_eq reliable ⟨f, g, hi, hj, halike⟩ home names, ?_, ?_,
    leftOver_swept reliable hi clock.wall home names⟩
  · rw [hexecute i rfl]
    exact removal_reply reliable hi clock home hremoved
  · rw [hexecute j hregion]
    exact removal_reply reliable hj clock home hremoved

omit reliable

/-- A key that expired is read as absent with a sweep after its expiry, and so without. -/
theorem execute_swept_get :
    let node := Instance.start (.fresh Table.empty 1 "main") (.standalone "one") true true ⟨0, 0⟩
    let steps : List Step := [.command ⟨1000, 1000⟩ ["SET", "k", "v", "EX", "1"], .sweep 3000]
    Table.empty = Table.empty ∧ (∀ step ∈ steps, step.OnKeys) ∧
      (steps.map Step.now ++ [3000]).Pairwise (· ≤ ·) ∧ Command.OnKeys ["GET", "k"] ∧
      ((node.serve steps).execute ⟨3000, 3000⟩ ["GET", "k"]).1 = .nil ∧
      ((node.serve (steps.filter Step.isCommand)).execute ⟨3000, 3000⟩ ["GET", "k"]).1 = .nil := by
  have habsent :
      ((Instance.start (.fresh Table.empty 1 "main") (.standalone "one") true true ⟨0, 0⟩ |>.serve
        [.command ⟨1000, 1000⟩ ["SET", "k", "v", "EX", "1"]]).execute ⟨3000, 3000⟩ ["GET", "k"]).1 =
          .nil := by with_unfolding_all exact rfl
  intro node steps
  have hset : Command.ofTokens ["SET", "k", "v", "EX", "1"] =
      .ok (none, .set "k" "v" (some 1)) := by decide +kernel
  have hget : Command.ofTokens ["GET", "k"] = .ok (none, .get "k") := by decide +kernel
  have hsteps : ∀ step ∈ steps, step.OnKeys := by
    simp only [steps, List.forall_mem_cons]
    refine ⟨?_, trivial, List.forall_mem_nil _⟩
    rintro region c hparse
    cases hset.symm.trans hparse
    rfl
  have hclock : (steps.map Step.now ++ [3000]).Pairwise (· ≤ ·) := by decide
  have htokens : Command.OnKeys ["GET", "k"] := by
    rintro region c hparse
    cases hget.symm.trans hparse
    rfl
  refine ⟨rfl, hsteps, hclock, htokens, ?_, habsent⟩
  refine ((execute_swept Table.reliable rfl 1 "main" node hsteps hclock htokens).1 ?_).trans habsent
  intro region c hparse
  cases hget.symm.trans hparse
  rfl

/-- A key that expired is absent, and a deletion counts it all the same, unless a sweep came first. -/
theorem deleted_unswept :
    let node := Instance.start (.fresh Table.empty 1 "main") (.standalone "one") true true ⟨0, 0⟩
    let swept := node.serve [.command ⟨1000, 1000⟩ ["SET", "k", "v", "EX", "1"], .sweep 3000]
    let unswept := node.serve [.command ⟨1000, 1000⟩ ["SET", "k", "v", "EX", "1"]]
    (unswept.execute ⟨3000, 3000⟩ ["EXISTS", "k"]).1 = .count 0 ∧
      (unswept.execute ⟨3000, 3000⟩ ["DEL", "k"]).1 = .count 1 ∧
      (swept.execute ⟨3000, 3000⟩ ["DEL", "k"]).1 = .count 0 := by
  with_unfolding_all exact ⟨rfl, rfl, rfl⟩

end Instance
end TierCache
