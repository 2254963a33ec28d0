import TierCache.Channel
import TierCache.Proofs.Tree

/-!
A receiver that does not fall behind gets every message published after it subscribed, once and in
order.
-/
namespace TierCache.Channel
open Std

variable {α : Type} {c : Channel α} {n : Nat} {ms : List α}

/-- Publishes messages one after another. -/
def publishAll (c : Channel α) (ms : List α) : Channel α := ms.foldl (fun c m => (c.publish m).2) c

@[simp] theorem publishAll_nil (c : Channel α) : c.publishAll [] = c := rfl

@[simp] theorem publishAll_cons (c : Channel α) (m : α) (ms : List α) :
    c.publishAll (m :: ms) = (c.publish m).2.publishAll ms := rfl

@[simp] theorem publish_receivers (c : Channel α) (m : α) :
    (c.publish m).2.receivers = c.receivers := by
  unfold publish
  split <;> rfl

@[simp] theorem publish_capacity (c : Channel α) (m : α) :
    (c.publish m).2.capacity = c.capacity := by
  unfold publish
  split <;> rfl

@[simp] theorem publishAll_receivers (c : Channel α) (ms : List α) :
    (c.publishAll ms).receivers = c.receivers := by
  induction ms generalizing c with
  | nil => rfl
  | cons m ms ih => rw [publishAll_cons, ih, publish_receivers]

@[simp] theorem publishAll_capacity (c : Channel α) (ms : List α) :
    (c.publishAll ms).capacity = c.capacity := by
  induction ms generalizing c with
  | nil => rfl
  | cons m ms ih => rw [publishAll_cons, ih, publish_capacity]

/-- Where there is a receiver, a message is kept under the next number; the one that is `capacity`
older is not kept any more. -/
theorem publish_of_receiver {receiver : Nat} (h : c.receivers[receiver]? = some n) (m : α) :
    (c.publish m).2.sent = c.sent + 1 ∧ (c.publish m).2.kept =
      if c.capacity ≤ c.sent then (c.kept.insert c.sent m).erase (c.sent - c.capacity)
      else c.kept.insert c.sent m := by
  have hsome : c.receivers.isEmpty = false := by
    cases hempty : c.receivers.isEmpty with
    | false => rfl
    | true => simp [ExtTreeMap.isEmpty_iff.1 hempty] at h
  rw [publish, hsome]
  exact ⟨rfl, rfl⟩

/-- The messages from a number on are these, and all of them are kept. -/
structure Holds (c : Channel α) (n : Nat) (ms : List α) : Prop where
  sent : c.sent = n + ms.length
  kept : ∀ i < ms.length, c.kept[n + i]? = ms[i]?

theorem Holds.publish {receiver k : Nat} (h : Holds c n ms) (hthere : c.receivers[receiver]? = some k)
    (hroom : ms.length < c.capacity) (m : α) : Holds (c.publish m).2 n (ms ++ [m]) := by
  obtain ⟨hsent, hkept⟩ := publish_of_receiver hthere m
  refine ⟨?_, fun i hi => ?_⟩
  · rw [hsent, h.sent, List.length_append, List.length_singleton, Nat.add_assoc]
  · rw [List.length_append, List.length_singleton] at hi
    -- what goes out is older than number `n`
    have hrow : (c.publish m).2.kept[n + i]? = (c.kept.insert c.sent m)[n + i]? := by
      rw [hkept]
      split
      · rename_i hfull
        have hold : c.sent - c.capacity ≠ n + i := by
          have := h.sent
          omega
        rw [Tree.get_erase, if_neg hold]
      · rfl
    rw [hrow, Tree.get_insert, h.sent]
    by_cases hlast : i = ms.length
    · rw [hlast, if_pos rfl, List.getElem?_append_right le_rfl, Nat.sub_self]
      rfl
    · rw [if_neg (by omega), h.kept i (by omega), List.getElem?_append_left (by omega)]

theorem Holds.publishAll {receiver k : Nat} (h : Holds c n ms)
    (hthere : c.receivers[receiver]? = some k) (more : List α)
    (hroom : ms.length + more.length ≤ c.capacity) : Holds (c.publishAll more) n (ms ++ more) := by
  induction more generalizing c ms with
  | nil => rwa [List.append_nil]
  | cons m more ih =>
    rw [List.length_cons] at hroom
    have hfirst := h.publish hthere (by omega) m
    have hrest := ih hfirst (by rwa [publish_receivers])
      (by rw [publish_capacity, List.length_append, List.length_singleton]; omega)
    rwa [List.append_assoc, List.singleton_append] at hrest

theorem Holds.since (h : Holds c n ms) : c.since n = ms := by
  have hrows : (List.range' n (c.sent - n)).map (c.kept[·]?) = ms.map some := by
    rw [h.sent, Nat.add_sub_cancel_left]
    refine List.ext_getElem? fun i => ?_
    rw [List.getElem?_map, List.getElem?_map]
    by_cases hi : i < ms.length
    · rw [List.getElem?_range' hi, Option.map_some, Nat.one_mul, h.kept i hi,
        List.getElem?_eq_getElem hi, Option.map_some]
    · rw [List.getElem?_eq_none (by rw [List.length_range']; omega),
        List.getElem?_eq_none (by omega)]
      rfl
  have hsince : c.since n = ((List.range' n (c.sent - n)).map (c.kept[·]?)).filterMap id := by
    rw [List.filterMap_map]
    rfl
  rw [hsince, hrows, List.filterMap_map]
  exact List.filterMap_some

/-- A receiver that has taken all that waited for it is given what is published since then, unless
it is more than the channel keeps. -/
theorem drain_publishAll {receiver : Nat} (h : c.receivers[receiver]? = some c.sent)
    (hroom : ms.length ≤ c.capacity) :
    ((c.publishAll ms).drain receiver).1 = ms.map Delivery.message := by
  have hnew : Holds c c.sent [] := ⟨rfl, nofun⟩
  have hholds : Holds (c.publishAll ms) c.sent ([] ++ ms) :=
    hnew.publishAll h ms (by simpa using hroom)
  rw [List.nil_append] at hholds
  have hnone : (c.publishAll ms).oldest - c.sent = 0 := by
    rw [oldest, hholds.sent, publishAll_capacity]
    omega
  rw [drain, publishAll_receivers, h]
  simp only [hnone, Nat.add_zero, hholds.since, Nat.lt_irrefl, if_false]

end TierCache.Channel
