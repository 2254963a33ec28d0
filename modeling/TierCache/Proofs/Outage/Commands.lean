import TierCache.Proofs.Outage.Performing
import TierCache.Proofs.Replication.Relay
import TierCache.Protocol.Execute

/-!
Commands while the store may fail. A command that only asks, and one that is answered with an error,
changes no row, no known key and nothing of what memory says, and no subscriber hears of it.
-/
namespace TierCache
open Std

namespace Command

/-- The names of the commands that only ask. -/
def readNames : List String :=
  ["GET", "EXISTS", "TTL", "TYPE", "KEYS", "SCAN", "HGET", "HGETALL", "LRANGE", "LLEN", "SMEMBERS",
    "SISMEMBER", "ZRANGE", "ZSCORE", "INFO", "ROLE"]

def Reads : Command → Prop
  | .get _ | .countLive _ | .ttl _ | .typeOf _ | .keys _ | .scan .. | .hget .. | .hgetAll _
  | .listRange .. | .listLength _ | .setMembers _ | .setContains .. | .sortedRange ..
  | .sortedScore .. | .info | .role => True
  | _ => False

section
variable {cmd : String} {args : List String} {c : Command}

theorem reads_of_one {make : String → Command} (h : one cmd make args = .ok c)
    (hmake : ∀ a, (make a).Reads) : c.Reads := by
  unfold one at h
  split at h
  · cases h
    exact hmake _
  · cases h

theorem reads_of_two {make : String → String → Command} (h : two cmd make args = .ok c)
    (hmake : ∀ a b, (make a b).Reads) : c.Reads := by
  unfold two at h
  split at h
  · cases h
    exact hmake _ _
  · cases h

theorem reads_of_keyAndRange {key start stop : String} {make : String → Int64 → Int64 → Command}
    (h : keyAndRange key start stop make = .ok c) (hmake : ∀ a b, (make key a b).Reads) :
    c.Reads := by
  unfold keyAndRange at h
  split at h
  · cases h
    exact hmake _ _
  · cases h
  · cases h

theorem reads_of_scanArguments (h : scanArguments cmd args = .ok c) : c.Reads := by
  unfold scanArguments at h
  split at h
  · cases h
  · split at h
    · cases h
    · split at h
      · cases h
      · cases hoptions : scanOptions "*" defaultCount _ with
        | error err =>
          rw [hoptions] at h
          cases h
        | ok options =>
          rw [hoptions] at h
          cases h
          trivial

end

/-- A command by one of the names only asks. -/
theorem reads_of_name {first : String} {args : List String} {c : Command}
    (hname : Text.upper first ∈ readNames) (h : ofName first args = .ok c) : c.Reads := by
  unfold ofName at h
  extract_lets cmd at h
  have hfail (h : fail (.arity cmd) = Except.ok c) : c.Reads := by cases h
  simp only [readNames, List.mem_cons, List.not_mem_nil, or_false] at hname
  -- one case for each name, in the order of the list
  obtain hname | hname | hname | hname | hname | hname | hname | hname | hname | hname | hname |
    hname | hname | hname | hname | hname := hname
  all_goals rw [hname] at h
  · change one cmd .get args = .ok c at h
    exact reads_of_one h fun _ => trivial
  · cases args with
    | nil => exact hfail h
    | cons key rest =>
      change .ok (countLive (key :: rest)) = Except.ok c at h
      cases h
      trivial
  · change one cmd .ttl args = .ok c at h
    exact reads_of_one h fun _ => trivial
  · change one cmd .typeOf args = .ok c at h
    exact reads_of_one h fun _ => trivial
  · change one cmd .keys args = .ok c at h
    exact reads_of_one h fun _ => trivial
  · change scanArguments cmd args = .ok c at h
    exact reads_of_scanArguments h
  · change two cmd .hget args = .ok c at h
    exact reads_of_two h fun _ _ => trivial
  · change one cmd .hgetAll args = .ok c at h
    exact reads_of_one h fun _ => trivial
  · obtain _ | ⟨key, _ | ⟨start, _ | ⟨stop, _ | ⟨extra, rest⟩⟩⟩⟩ := args
    · exact hfail h
    · exact hfail h
    · exact hfail h
    · change keyAndRange key start stop listRange = .ok c at h
      exact reads_of_keyAndRange h fun _ _ => trivial
    · exact hfail h
  · change one cmd .listLength args = .ok c at h
    exact reads_of_one h fun _ => trivial
  · change one cmd .setMembers args = .ok c at h
    exact reads_of_one h fun _ => trivial
  · change two cmd .setContains args = .ok c at h
    exact reads_of_two h fun _ _ => trivial
  · obtain _ | ⟨key, _ | ⟨start, _ | ⟨stop, _ | ⟨option, _ | ⟨extra, rest⟩⟩⟩⟩⟩ := args
    · exact hfail h
    · exact hfail h
    · exact hfail h
    · change keyAndRange key start stop (sortedRange · · · false) = .ok c at h
      exact reads_of_keyAndRange h fun _ _ => trivial
    · change (if Text.upper option = "WITHSCORES" then
          keyAndRange key start stop (sortedRange · · · true)
        else fail .badOptions) = Except.ok c at h
      split at h
      · exact reads_of_keyAndRange h fun _ _ => trivial
      · cases h
    · exact hfail h
  · change two cmd .sortedScore args = .ok c at h
    exact reads_of_two h fun _ _ => trivial
  · change (.ok .info : Result Command) = .ok c at h
    cases h
    trivial
  · cases args with
    | nil =>
      change .ok role = Except.ok c at h
      cases h
      trivial
    | cons extra rest => exact hfail h

end Command

namespace Instance

variable {σ : Type}

/-! ### Commands as operations -/

/-- A command was one operation of the engine, answered with an error only if that was refused. -/
def RunsOne [Store σ] (i : Instance σ) (now : Nat) (c : Command) (outcome : Reply × Instance σ) :
    Prop :=
  ∃ (α : Type) (op : Operation α), outcome.2 = (i.run now (·.perform now op)).2 ∧
    (∀ m, outcome.1 = .error m → op.Refused (i.engine.perform now op).1) ∧ (c.Reads → op.Reads)

section
variable [Store σ] {α : Type} {i : Instance σ} {now : Nat} {c : Command} {reply : α → Reply}

theorem runsOne (op : Operation α) (hreply : ∀ a m, reply a ≠ .error m)
    (hreads : c.Reads → op.Reads) :
    i.RunsOne now c (i.answer now reply (·.perform now op)) :=
  ⟨α, op, rfl, fun m h => absurd h (hreply _ m), hreads⟩

/-- An operation that can fail is answered with an error when it is refused. -/
theorem runsOne_replyTo (op : Operation (Except CacheError α)) (hreply : ∀ a m, reply a ≠ .error m)
    (hrefused : ∀ result, (∃ err, result = .error err) → op.Refused result)
    (hreads : c.Reads → op.Reads) :
    i.RunsOne now c (i.answer now (replyTo reply) (·.perform now op)) := by
  refine ⟨_, op, rfl, ?_, hreads⟩
  intro m h
  apply hrefused
  have hresult : replyTo reply (i.engine.perform now op).1 = .error m := h
  cases hr : (i.engine.perform now op).1 with
  | error err => exact ⟨err, rfl⟩
  | ok a =>
    rw [hr] at hresult
    exact absurd hresult (hreply a m)

end

theorem count_ne (n : Nat) (m : String) : Reply.count n ≠ .error m := nofun

/-- A command is one operation of the engine; or it leaves the engine alone, is not answered with an
error, and changes nothing at all if it only asks. -/
theorem perform_runs [Store σ] (i : Instance σ) (clock : Clock) (region : String) (c : Command) :
    i.RunsOne clock.wall c (i.perform clock region c) ∨
      (i.perform clock region c).2.engine = i.engine ∧
        (∀ m, (i.perform clock region c).1 ≠ .error m) ∧
        (c.Reads → (i.perform clock region c).2 = i) := by
  cases c with
  | ping message =>
    cases message with
    | none => exact .inr ⟨rfl, nofun, nofun⟩
    | some message => exact .inr ⟨rfl, nofun, nofun⟩
  | echo message => exact .inr ⟨rfl, nofun, nofun⟩
  | publish channel message => exact .inr ⟨rfl, nofun, nofun⟩
  | role => exact .inr ⟨rfl, nofun, fun _ => rfl⟩
  | info => exact .inl ⟨_, .regionNames, rfl, nofun, fun _ => trivial⟩
  | get key => exact .inl (runsOne (.get region key) nofun fun _ => trivial)
  | countLive names => exact .inl (runsOne (.countLive region names) count_ne fun _ => trivial)
  | ttl key => exact .inl (runsOne (.ttl region key) nofun fun _ => trivial)
  | typeOf key => exact .inl (runsOne (.typeOf region key) nofun fun _ => trivial)
  | keys pattern => exact .inl (runsOne (.keys region pattern) nofun fun _ => trivial)
  | scan cursor pattern count =>
    exact .inl (runsOne (.scan region cursor pattern count) nofun fun _ => trivial)
  | delete names => exact .inl (runsOne (.delete region names) count_ne nofun)
  | set key text seconds =>
    exact .inl (runsOne_replyTo (.setValue region key (.string text)
      (seconds.map (Engine.secondsAfter clock.wall))) nofun (fun _ => id) nofun)
  | expire key seconds =>
    exact .inl (runsOne_replyTo (.expire region key seconds.toInt) nofun (fun _ => id) nofun)
  | persist key => exact .inl (runsOne_replyTo (.persist region key) nofun (fun _ => id) nofun)
  | deleteRegion name =>
    exact .inl (runsOne_replyTo (.deleteRegion (name.getD region)) nofun (fun _ => id) nofun)
  | incrBy key delta =>
    exact .inl (runsOne_replyTo (.typed region key (.incrBy delta)) nofun (fun _ => id) nofun)
  | append key suffix =>
    exact .inl (runsOne_replyTo (.typed region key (.append suffix)) count_ne (fun _ => id) nofun)
  | hset key pairs =>
    exact .inl (runsOne_replyTo (.typed region key (.hset pairs)) count_ne (fun _ => id) nofun)
  | hdel key fields =>
    exact .inl (runsOne_replyTo (.typed region key (.hdel fields)) count_ne (fun _ => id) nofun)
  | pushHead key items =>
    exact .inl (runsOne_replyTo (.typed region key (.pushHead items)) count_ne (fun _ => id) nofun)
  | pushTail key items =>
    exact .inl (runsOne_replyTo (.typed region key (.pushTail items)) count_ne (fun _ => id) nofun)
  | popHead key =>
    exact .inl (runsOne_replyTo (.typed region key .popHead) nofun (fun _ => id) nofun)
  | popTail key =>
    exact .inl (runsOne_replyTo (.typed region key .popTail) nofun (fun _ => id) nofun)
  | setAdd key members =>
    exact .inl (runsOne_replyTo (.typed region key (.setAdd members)) count_ne (fun _ => id) nofun)
  | setRemove key members =>
    exact .inl (runsOne_replyTo (.typed region key (.setRemove members)) count_ne (fun _ => id)
      nofun)
  | sortedAdd key members =>
    exact .inl (runsOne_replyTo (.typed region key (.sortedAdd members)) count_ne (fun _ => id)
      nofun)
  | sortedRemove key members =>
    exact .inl (runsOne_replyTo (.typed region key (.sortedRemove members)) count_ne (fun _ => id)
      nofun)
  | hget key field =>
    exact .inl (runsOne_replyTo (.typed region key (.hget field)) nofun (fun _ => id)
      fun _ => trivial)
  | hgetAll key =>
    exact .inl (runsOne_replyTo (.typed region key .hgetAll) nofun (fun _ => id) fun _ => trivial)
  | listRange key start stop =>
    exact .inl (runsOne_replyTo (.typed region key (.listRange start stop)) nofun (fun _ => id)
      fun _ => trivial)
  | listLength key =>
    exact .inl (runsOne_replyTo (.typed region key .listLength) count_ne (fun _ => id)
      fun _ => trivial)
  | setMembers key =>
    exact .inl (runsOne_replyTo (.typed region key .setMembers) nofun (fun _ => id)
      fun _ => trivial)
  | setContains key member =>
    exact .inl (runsOne_replyTo (.typed region key (.setContains member)) nofun (fun _ => id)
      fun _ => trivial)
  | sortedRange key start stop withScores =>
    exact .inl (runsOne_replyTo (.typed region key (.sortedRange start stop)) nofun (fun _ => id)
      fun _ => trivial)
  | sortedScore key member =>
    exact .inl (runsOne_replyTo (.typed region key (.sortedScore member)) nofun (fun _ => id)
      fun _ => trivial)

/-! ### What nobody notices -/

/-- Subscribers hear of changes only. -/
theorem relay_foldl_notifier {i : Instance σ} {now : Nat} {signals : List Signal}
    (h : ∀ signal ∈ signals, ∃ m, signal = .mutation m) :
    (signals.foldl (relay now) i).notifier = i.notifier := by
  induction signals generalizing i with
  | nil => rfl
  | cons signal rest ih =>
    rw [List.forall_mem_cons] at h
    obtain ⟨⟨m, rfl⟩, hrest⟩ := h
    rw [List.foldl_cons, ih hrest]
    simp only [relay, publish]
    split <;> rfl

end Instance

theorem Operation.foretells_mutation {α : Type} (op : Operation α) (defaultRegion : String) :
    ∀ signal ∈ op.foretells defaultRegion, ∃ m, signal = .mutation m := by
  intro signal hsignal
  unfold foretells at hsignal
  split at hsignal
  · split at hsignal
    · cases hsignal
    · exact ⟨_, List.mem_singleton.mp hsignal⟩
  · cases hsignal

/-- The same keys are known, and memory says nothing else of any key that it has still. -/
structure Engine.Undisturbed {σ : Type} (e e' : Engine σ) : Prop where
  known (region : String) : (e'.regionD region).known = (e.regionD region).known
  memory {region key : String} {before after : Entry}
    (hbefore : (e.regionD region).memory[key]? = some before)
    (hafter : (e'.regionD region).memory[key]? = some after) :
    after.value = before.value ∧ after.createdAt = before.createdAt ∧
      after.expiresAt = before.expiresAt

theorem Moves.undisturbed {σ : Type} {stands : σ → Table → Prop} {now : Nat} {told : List Signal}
    {e e' : Engine (Faulty σ)} {t : Table} (h : Backed stands e t)
    (hmoves : Moves stands now .quiet told e t e' t) : e.Undisturbed e' := by
  refine ⟨?_, ?_⟩
  · intro region
    apply ExtTreeSet.ext_contains
    intro key
    exact (hmoves.path region key).same.known
  · intro region key before after hbefore hafter
    have hrow : after.row = before.row := by
      obtain hcopy | ⟨entry, hentry, hsame⟩ :=
        (hmoves.path region key).same.copy (congrArg (Option.map Entry.row) hafter)
      · exact Option.some.inj (hcopy.symm.trans (congrArg (Option.map Entry.row) hbefore))
      · rw [← hsame]
        exact (h.copied hbefore).ofRow hentry
    rwa [Entry.row, Entry.row, Row.mk.injEq] at hrow

namespace Instance

variable {σ : Type} {stands : σ → Table → Prop}

/-- The rows are those of a table still, the engine is undisturbed, and no subscriber heard of
anything. -/
structure Unnoticed (stands : σ → Table → Prop) (t : Table) (i j : Instance (Faulty σ)) : Prop where
  rows : stands j.engine.store.inner t
  undisturbed : i.engine.Undisturbed j.engine
  notifier : j.notifier = i.notifier

section
variable {i : Instance (Faulty σ)} {t : Table} (h : Backed stands i.engine t)
include h

theorem unnoticed_refl : Unnoticed stands t i i :=
  have hstill : Moves stands 0 .quiet [] i.engine t i.engine t := .refl h
  ⟨h.stored, hstill.undisturbed h, rfl⟩

/-- Of quiet steps of the engine that tell no changes nobody hears. -/
theorem run_unnoticed (hsignals : i.engine.signals = []) {α : Type} {now : Nat}
    {run : Engine (Faulty σ) → α × Engine (Faulty σ)} {told : List Signal}
    (hmoves : Moves stands now .quiet told i.engine t (run i.engine).2 t)
    (htold : ∀ signal ∈ told, ∃ m, signal = .mutation m) :
    Unnoticed stands t i (i.run now run).2 := by
  have htold' : (run i.engine).2.signals = told := by rw [hmoves.signals, hsignals, List.nil_append]
  have hrun : (i.run now run).2 = told.foldl (relay now)
      { i with engine := { (run i.engine).2 with signals := [] } } := by
    rw [← htold']
    rfl
  have hengine : (i.run now run).2.engine = { (run i.engine).2 with signals := [] } := by
    rw [hrun]
    exact (relay_foldl_keeps told).1
  refine ⟨?_, ?_, ?_⟩
  · rw [hengine]
    exact hmoves.backed.stored
  · have hsame := hmoves.undisturbed h
    rw [hengine]
    exact ⟨hsame.known, hsame.memory⟩
  · rw [hrun]
    exact relay_foldl_notifier htold

variable [Store σ] (reliable : Reliable stands)
include reliable

theorem perform_unnoticed (hsignals : i.engine.signals = []) {clock : Clock} {region : String}
    {c : Command} (hquiet : (∃ m, (i.perform clock region c).1 = .error m) ∨ c.Reads) :
    Unnoticed stands t i (i.perform clock region c).2 := by
  obtain ⟨α, op, heq, herr, hreads⟩ | ⟨-, hfine, hreads⟩ := i.perform_runs clock region c
  · rw [heq]
    obtain ⟨m, hm⟩ | hread := hquiet
    · exact run_unnoticed h hsignals ((h.perform_ends reliable clock.wall op).1 (herr m hm))
        (op.foretells_mutation _)
    · exact run_unnoticed h hsignals (h.perform_reads reliable clock.wall (hreads hread)) nofun
  · obtain ⟨m, hm⟩ | hread := hquiet
    · exact absurd hm (hfine m)
    · rw [hreads hread]
      exact unnoticed_refl h

theorem execute_unnoticed (hsignals : i.engine.signals = []) {clock : Clock} {tokens : List String}
    (hquiet : (∃ m, (i.execute clock tokens).1 = .error m) ∨
      ∃ name rest, tokens = name :: rest ∧ Text.upper name ∈ Command.readNames) :
    Unnoticed stands t i (i.execute clock tokens).2 := by
  unfold execute at hquiet ⊢
  cases htokens : Command.ofTokens tokens with
  | error err => exact unnoticed_refl h
  | ok parsed =>
    rw [htokens] at hquiet
    apply perform_unnoticed h reliable hsignals
    refine hquiet.imp_right ?_
    rintro ⟨name, rest, rfl, hname⟩
    unfold Command.ofTokens at htokens
    dsimp only at htokens
    split at htokens
    · cases htokens
    · rename_i args _
      cases hc : Command.ofName name args with
      | error err =>
        rw [hc] at htokens
        cases htokens
      | ok c =>
        rw [hc] at htokens
        cases htokens
        exact Command.reads_of_name hname hc

end

variable [Store σ]

/-- After any run over a store that fails whenever it likes, a command that is answered with an error, and
one that only asks, leaves all rows, all known keys and all that memory says as they were, and no
subscriber hears of it. -/
theorem execute_undisturbed (reliable : Reliable stands) {store : Faulty σ} {t₀ : Table}
    (h₀ : stands store.inner t₀) (named : t₀.Named) (capacity : Nat) (defaultRegion : String)
    (calls : List Call) (node : Instance (Faulty σ)) (clock : Clock) (tokens : List String) :
    let e := (Engine.fresh store capacity defaultRegion).performAll calls
    let i := { node with engine := { e with signals := [] } }
    let outcome := i.execute clock tokens
    ((∃ m, outcome.1 = .error m) ∨
      ∃ name rest, tokens = name :: rest ∧ Text.upper name ∈ Command.readNames) →
    ∃ t, stands i.engine.store.inner t ∧ stands outcome.2.engine.store.inner t ∧
      i.engine.Undisturbed outcome.2.engine ∧ outcome.2.notifier = i.notifier := by
  intro e i outcome hquiet
  obtain ⟨t, hrun⟩ := (Backed.fresh h₀ named capacity defaultRegion).performAll reliable calls
  have h : Backed stands i.engine t := hrun.of_eq rfl rfl
  have hunnoticed := execute_unnoticed h reliable rfl hquiet
  exact ⟨t, h.stored, hunnoticed.rows, hunnoticed.undisturbed, hunnoticed.notifier⟩

/-- Reading a key leaves the rows as they are, though the store neither saves nor deletes any more. -/
theorem execute_undisturbed_get :
    let store : Faulty Table := ⟨.empty, fun n call => 0 < n && (call = .save || call = .delete), 0⟩
    let e := (Engine.fresh store 1 "main").performAll
      [⟨5, _, .setValue "main" "k" (.string "v") none⟩]
    let i : Instance (Faulty Table) := { Instance.start e (.standalone "one") true true ⟨5, 5⟩ with
      engine := { e with signals := [] } }
    store.inner = Table.empty ∧ Table.empty.Named ∧
      Text.upper "get" ∈ Command.readNames ∧
      (i.execute ⟨6, 6⟩ ["get", "k"]).2.engine.store.inner = i.engine.store.inner := by
  intro store e i
  have hempty : store.inner = Table.empty := rfl
  have named : Table.empty.Named := Table.named_empty
  have hname : Text.upper "get" ∈ Command.readNames := by decide +kernel
  refine ⟨rfl, named, hname, ?_⟩
  obtain ⟨t, rfl, heq, -⟩ := execute_undisturbed Table.reliable hempty named 1 "main"
    [⟨5, _, .setValue "main" "k" (.string "v") none⟩]
    (Instance.start e (.standalone "one") true true ⟨5, 5⟩) ⟨6, 6⟩ ["get", "k"]
    (.inr ⟨"get", ["k"], rfl, hname⟩)
  exact heq

end Instance
end TierCache
