import TierCache.Proofs.Flat.Alike
import TierCache.Proofs.Replication.Event
import TierCache.Proofs.Value.Edit

/-!
What a flat cache tells is enough to follow it: whoever looks like it and does what it tells looks
like it afterwards. All it tells can be carried by events.
-/
namespace TierCache

/-- Whether it matters when a notice is followed. -/
def Notice.isTimed : Notice → Bool
  | .expire .. => true
  | _ => false

/-- An event can carry the row. -/
structure Row.Encodable (row : Row) : Prop where
  value : row.value.Encodable
  expiresAt : ∀ t ∈ row.expiresAt, t ≤ Text.maxUnsigned

namespace Flat

/-- The cache after it followed notices. -/
def replay (f : Flat) (now : Nat) (notices : List Notice) : Flat :=
  f.performAll (notices.flatMap (·.calls now))

variable {f g h : Flat} {now : Nat}

theorem replay_cons (n : Notice) (ns : List Notice) :
    f.replay now (n :: ns) = (f.replay now [n]).replay now ns := by
  simp only [replay, performAll, List.flatMap_cons, List.flatMap_nil, List.append_nil,
    List.foldl_append]

theorem replay_append (ns ms : List Notice) :
    f.replay now (ns ++ ms) = (f.replay now ns).replay now ms := by
  simp only [replay, performAll, List.flatMap_append, List.foldl_append]

/-- Caches that look alike follow the same notices to caches that look alike. Only a notice that lets
a key expire has to be followed at the reading at which they do. -/
theorem Alike.replay {reading reading' : Nat} (h : Alike now f g) {ns : List Notice}
    (htimed : ∀ n ∈ ns, n.isTimed = true → reading = now ∧ reading' = now) :
    Alike now (f.replay reading ns) (g.replay reading' ns) := by
  induction ns generalizing f g with
  | nil => exact h
  | cons n rest ih =>
    rw [List.forall_mem_cons] at htimed
    rw [replay_cons, g.replay_cons]
    apply ih _ htimed.2
    cases n with
    | set region key value expiresAt => exact h.write _ _ region key value expiresAt
    | delete region key => exact h.delete region [key]
    | expire region key seconds =>
      obtain ⟨rfl, rfl⟩ := htimed.1 rfl
      exact h.expire region key seconds
    | deleteRegion region => exact h.deleteRegion region
    | change region key kind => exact h

/-! ### What is told -/

/-- The way from one cache to another is told: to follow it leads to the same looks. -/
def Tells (now : Nat) (f g : Flat) : Prop :=
  ∃ ns : List Notice, g.told = f.told ++ ns ∧ (∀ n ∈ ns, n.Encodable) ∧
    Alike now (f.replay now ns) g

namespace Tells

theorem of_silent (htold : g.told = f.told) (h : Alike now f g) : Tells now f g :=
  ⟨[], by rw [htold, List.append_nil], nofun, h⟩

theorem refl (f : Flat) : Tells now f f := of_silent rfl (.refl f)

theorem trans (h₁ : Tells now f g) (h₂ : Tells now g h) : Tells now f h := by
  obtain ⟨ns, htold₁, hns, halike₁⟩ := h₁
  obtain ⟨ms, htold₂, hms, halike₂⟩ := h₂
  refine ⟨ns ++ ms, by rw [htold₂, htold₁, List.append_assoc], ?_, ?_⟩
  · intro n hn
    exact (List.mem_append.1 hn).elim (hns n) (hms n)
  · rw [replay_append]
    exact (halike₁.replay fun _ _ _ => ⟨rfl, rfl⟩).trans halike₂

/-- A notice is told with the change that goes with it, which followers pass over. -/
theorem announced {n : Notice} {region key : String} {kind : ChangeKind}
    (htold : g.told = f.told ++ [n, .change region key kind]) (hn : n.Encodable)
    (h : Alike now (f.replay now [n]) g) : Tells now f g := by
  refine ⟨_, htold, ?_, ?_⟩
  · rw [List.forall_mem_cons, List.forall_mem_singleton]
    exact ⟨hn, trivial⟩
  · rw [replay_cons]
    exact h

theorem write (f : Flat) (region key : String) {value : Value} {expiresAt : Option Nat}
    (h : Row.Encodable ⟨value, now, expiresAt⟩) :
    Tells now f (f.write now region key value expiresAt) :=
  announced rfl ⟨h.value, h.expiresAt⟩ (.refl _)

theorem delete (f : Flat) (region : String) (keys : List String) :
    Tells now f (f.delete region keys).2 := by
  induction keys generalizing f with
  | nil => exact refl f
  | cons key rest ih =>
    rw [Flat.delete]
    split
    · rename_i hthere
      have hreplay : f.replay now [.delete region key] = (f.delete region [key]).2 := rfl
      rw [Flat.delete, if_pos hthere] at hreplay
      have hfirst : Tells now f ((f.erase region key).tell
          [.delete region key, .change region key .delete]) :=
        announced rfl trivial (hreplay ▸ .refl _)
      exact hfirst.trans (ih _)
    · exact ih f

theorem expire (f : Flat) (region key : String) {seconds : Int} (h : seconds < Text.signedLimit) :
    Tells now f (f.expire now region key seconds).2 := by
  by_cases hseconds : seconds ≤ 0
  · rw [Flat.expire, if_pos hseconds]
    exact delete f region [key]
  · have hreplay : f.replay now [.expire region key seconds] =
        (f.expire now region key seconds).2 := rfl
    rw [Flat.expire, if_neg hseconds] at hreplay ⊢
    split
    · exact refl f
    · rename_i hrow
      rw [hrow] at hreplay
      exact announced rfl ⟨by omega, h⟩ (hreplay ▸ .refl _)

theorem persist {region key : String}
    (hf : ∀ row, f.row? region key = some row → row.Encodable) :
    Tells now f (f.persist now region key).2 := by
  rw [Flat.persist]
  split
  · exact refl f
  · rename_i row hvisible
    obtain ⟨hrow, -⟩ := Option.filter_eq_some_iff.1 hvisible
    refine announced rfl ⟨(hf row hrow).value, nofun⟩ ?_
    have hsame : (f.succeed region key ⟨row.value, now, none⟩).seen now =
        { row with expiresAt := none }.seen now := rfl
    exact ((Alike.refl f).place region key hsame).tell _ _

theorem deleteRegion (f : Flat) (region : String) : Tells now f (f.deleteRegion region).2 := by
  have hreplay : f.replay now [.deleteRegion region] = (f.deleteRegion region).2 := rfl
  rw [Flat.deleteRegion] at hreplay ⊢
  split
  · exact refl f
  · rename_i hother
    rw [if_neg hother] at hreplay
    exact announced rfl trivial (hreplay ▸ .refl _)

theorem sweep (f : Flat) : Tells now f (f.sweep now).2 := of_silent rfl (.sweep f)

end Tells

/-! ### What can be carried -/

/-- Events can carry all rows. -/
def Encodable (f : Flat) : Prop := ∀ region key row, f.row? region key = some row → row.Encodable

namespace Encodable

theorem empty (defaultRegion : String) : (Flat.empty defaultRegion).Encodable := by
  intro region key row hrow
  simp [Flat.empty, row?] at hrow

theorem of_rows (hf : f.Encodable)
    (h : ∀ region key row, g.row? region key = some row → f.row? region key = some row) :
    g.Encodable :=
  fun region key row hrow => hf region key row (h region key row hrow)

theorem place (hf : f.Encodable) (region key : String) {row : Row} (hrow : row.Encodable) :
    (f.place region key row).Encodable := by
  intro other name found hfound
  rw [row?_place] at hfound
  split at hfound
  · cases hfound
    exact hrow
  · exact hf other name found hfound

theorem keep (hf : f.Encodable) (stays : RowId → Row → Bool) : (f.keep stays).Encodable := by
  apply hf.of_rows
  intro region key row hrow
  rw [row?_keep] at hrow
  exact (Option.filter_eq_some_iff.1 hrow).1

theorem erase (hf : f.Encodable) (region key : String) : (f.erase region key).Encodable := by
  apply hf.of_rows
  intro other name row hrow
  rw [row?_erase] at hrow
  split at hrow
  · cases hrow
  · exact hrow

theorem visible (hf : f.Encodable) {region key : String} {row : Row}
    (hrow : f.visible? now region key = some row) : row.Encodable :=
  hf region key row (Option.filter_eq_some_iff.1 hrow).1

theorem write (hf : f.Encodable) (region key : String) {value : Value} {expiresAt : Option Nat}
    (h : Row.Encodable ⟨value, now, expiresAt⟩) :
    (f.write now region key value expiresAt).Encodable :=
  hf.place region key ⟨h.value, h.expiresAt⟩

theorem delete (hf : f.Encodable) (region : String) (keys : List String) :
    (f.delete region keys).2.Encodable := by
  induction keys generalizing f with
  | nil => exact hf
  | cons key rest ih =>
    rw [Flat.delete]
    split
    · exact ih (hf.erase region key)
    · exact ih hf

theorem expire (hf : f.Encodable) (region key : String) (seconds : Int) :
    (f.expire now region key seconds).2.Encodable := by
  rw [Flat.expire]
  split
  · exact hf.delete region [key]
  · split
    · exact hf
    · rename_i row hrow
      refine hf.place region key ⟨(hf.visible hrow).value, ?_⟩
      rintro t ⟨⟩
      exact Nat.min_le_right _ _

theorem persist (hf : f.Encodable) (region key : String) :
    (f.persist now region key).2.Encodable := by
  rw [Flat.persist]
  split
  · exact hf
  · rename_i row hrow
    exact hf.place region key ⟨(hf.visible hrow).value, nofun⟩

theorem deleteRegion (hf : f.Encodable) (region : String) :
    (f.deleteRegion region).2.Encodable := by
  rw [Flat.deleteRegion]
  split
  · exact hf
  · exact hf.keep _

end Encodable

/-! ### Operations -/

section
variable {α β : Type} (hf : f.Encodable) {region key : String}
include hf

theorem edit_told {c : Engine.Contents β} {change : β → Except CacheError (Edit α β)}
    {value : Value} {expiresAt : Option Nat} (hrow : Row.Encodable ⟨value, now, expiresAt⟩)
    (hchange : ∀ b edit, c.of? value = some b → change b = .ok edit →
      (c.wrap edit.after).Encodable) :
    Tells now f (f.edit now region key c change value expiresAt).2 ∧
      (f.edit now region key c change value expiresAt).2.Encodable := by
  unfold edit
  split
  · exact ⟨.refl f, hf⟩
  · rename_i contents hof
    split
    · exact ⟨.refl f, hf⟩
    · rename_i edit hedit
      have hafter : Row.Encodable ⟨c.wrap edit.after, now, expiresAt⟩ :=
        ⟨hchange contents edit hof hedit, hrow.expiresAt⟩
      dsimp only
      split
      · unfold writeBack
        split
        · exact ⟨.delete f region [key], hf.delete region [key]⟩
        · exact ⟨.write f region key hafter, hf.write region key hafter⟩
      · exact ⟨.refl f, hf⟩

theorem run_told {plan : Typed.Plan α} (hplan : plan.Encodes) :
    Tells now f (f.run now region key plan).2 ∧ (f.run now region key plan).2.Encodable := by
  cases plan with
  | refuse err => exact ⟨.refl f, hf⟩
  | upsert c change =>
    rw [run]
    split
    · rename_i row hrow
      have hold := hf.visible hrow
      exact edit_told hf ⟨hold.value, hold.expiresAt⟩ fun b edit => hplan row.value b edit hold.value
    · have hnew := Value.encodable_empty c.dataType
      exact edit_told hf ⟨hnew, nofun⟩ fun b edit => hplan _ b edit hnew
  | update c absent change =>
    rw [run]
    split
    · rename_i row hrow
      have hold := hf.visible hrow
      refine edit_told hf ⟨hold.value, hold.expiresAt⟩ ?_
      rintro b edit hof ⟨⟩
      exact hplan row.value b hold.value hof
    · exact ⟨.refl f, hf⟩
  | inspect c absent read =>
    rw [run]
    split
    · split <;> exact ⟨.refl f, hf⟩
    · exact ⟨.refl f, hf⟩

end

end Flat

/-- What a caller can hand to the cache: times and seconds in the range of their integers, and values
that JSON can hold. -/
def Operation.Encodable {α : Type} : Operation α → Prop
  | .setValue _ _ value expiresAt => value.Encodable ∧ ∀ t ∈ expiresAt, t ≤ Text.maxUnsigned
  | .expire _ _ seconds => seconds < Text.signedLimit
  | _ => True

/-- Whether an operation does no more than read or sweep. -/
def Operation.isQuiet {α : Type} : Operation α → Bool
  | .setValue .. | .expire .. | .persist .. | .delete .. | .deleteRegion .. => false
  | .typed _ _ op => match op.plan with
    | .refuse _ | .inspect .. => true
    | .upsert .. | .update .. => false
  | _ => true

namespace Flat

variable {f : Flat} {now : Nat}

/-- A quiet operation tells nothing and changes nothing of what is seen. -/
theorem perform_quiet {α : Type} {op : Operation α} (hop : op.isQuiet = true) :
    (f.perform now op).2.told = f.told ∧ Alike now f (f.perform now op).2 := by
  cases op with
  | get region key =>
    rw [perform, get]
    split <;> exact ⟨rfl, fun _ _ => rfl, rfl⟩
  | sweep => exact ⟨rfl, .sweep f⟩
  | typed region key op =>
    rw [Operation.isQuiet] at hop
    rw [perform]
    cases hplan : op.plan with
    | refuse err => exact ⟨rfl, .refl f⟩
    | inspect c absent read =>
      rw [run]
      split
      · split <;> exact ⟨rfl, .refl f⟩
      · exact ⟨rfl, .refl f⟩
    | upsert | update =>
      rw [hplan] at hop
      cases hop
  | setValue | expire | persist | delete | deleteRegion => cases hop
  | _ => exact ⟨rfl, .refl f⟩

/-- Every operation tells what it does, in notices that events can carry. -/
theorem perform_told {α : Type} (hf : f.Encodable) {op : Operation α} (hop : op.Encodable) :
    Tells now f (f.perform now op).2 ∧ (f.perform now op).2.Encodable := by
  cases op with
  | setValue region key value expiresAt =>
    exact ⟨.write f region key ⟨hop.1, hop.2⟩, hf.write region key ⟨hop.1, hop.2⟩⟩
  | get region key =>
    obtain ⟨htold, halike⟩ := @perform_quiet f now _ (.get region key) rfl
    refine ⟨.of_silent htold halike, ?_⟩
    rw [perform, get]
    split <;> exact hf
  | expire region key seconds => exact ⟨.expire f region key hop, hf.expire region key seconds⟩
  | persist region key => exact ⟨.persist (hf region key), hf.persist region key⟩
  | delete region keys => exact ⟨.delete f region keys, hf.delete region keys⟩
  | deleteRegion region => exact ⟨.deleteRegion f region, hf.deleteRegion region⟩
  | sweep => exact ⟨.sweep f, hf.keep _⟩
  | typed region key op => exact run_told hf op.plan_encodes
  | _ => exact ⟨.refl f, hf⟩

end Flat
end TierCache
