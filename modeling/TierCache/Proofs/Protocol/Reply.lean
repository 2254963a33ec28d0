import Std.Data.String.ToInt
import TierCache.Proofs.Json.Plain
import TierCache.Protocol.Reply

/-!
What a client can tell from the bytes of a connection. The replies that were sent are the only ones
with that encoding, whatever their texts hold, but for what the encoding does not show: a line break
in a line, and whether bulk texts were sent as an array or as replies.
-/
namespace TierCache.Reply

mutual

/-- A reply as its encoding shows it. -/
def seen : Reply → Reply
  | simple s => simple (String.ofList (oneLine s))
  | error s => error (String.ofList (oneLine s))
  | integer n => integer n
  | bulk t => bulk t
  | array items => nested (items.map text)
  | nested replies => nested (allSeen replies)

def allSeen : List Reply → List Reply
  | [] => []
  | r :: rest => seen r :: allSeen rest

end

theorem allSeen_eq_map (rs : List Reply) : allSeen rs = rs.map seen := by
  induction rs with
  | nil => rfl
  | cons r rs ih => rw [allSeen, List.map_cons, ih]

/-! ### The encoding shows no more than that -/

theorem oneLine_oneLine (s : String) : oneLine (String.ofList (oneLine s)) = oneLine s := by
  have hplain : ∀ c : Char, (if (if c = '\r' ∨ c = '\n' then ' ' else c) = '\r' ∨
      (if c = '\r' ∨ c = '\n' then ' ' else c) = '\n' then ' '
      else if c = '\r' ∨ c = '\n' then ' ' else c) = if c = '\r' ∨ c = '\n' then ' ' else c := by
    intro c
    by_cases hc : c = '\r' ∨ c = '\n' <;> simp [hc]
  simp only [oneLine, String.toList_ofList, List.map_map, Function.comp_def, hplain]

theorem allChars_texts (items : List String) : allChars (items.map text) = items.flatMap bulkChars := by
  induction items with
  | nil => rfl
  | cons s items ih => rw [List.map_cons, allChars, ih, text, chars, List.flatMap_cons]

theorem allSeen_texts (items : List String) : allSeen (items.map text) = items.map text := by
  induction items with
  | nil => rfl
  | cons s items ih => rw [List.map_cons, allSeen, ih, text, seen]

theorem length_allSeen (rs : List Reply) : (allSeen rs).length = rs.length := by
  rw [allSeen_eq_map, List.length_map]

mutual

theorem chars_seen (r : Reply) : chars (seen r) = chars r := by
  match r with
  | simple s => rw [seen, chars, chars, oneLine_oneLine]
  | error s => rw [seen, chars, chars, oneLine_oneLine]
  | integer n => rfl
  | bulk t => rfl
  | array items => rw [seen, chars, chars, List.length_map, allChars_texts]
  | nested replies => rw [seen, chars, chars, length_allSeen, allChars_allSeen replies]

theorem allChars_allSeen (rs : List Reply) : allChars (allSeen rs) = allChars rs := by
  match rs with
  | [] => rfl
  | r :: rest => rw [allSeen, allChars, allChars, chars_seen r, allChars_allSeen rest]

end

mutual

theorem seen_seen (r : Reply) : seen (seen r) = seen r := by
  match r with
  | simple s => rw [seen, seen, oneLine_oneLine]
  | error s => rw [seen, seen, oneLine_oneLine]
  | integer n => rfl
  | bulk t => rfl
  | array items => rw [seen, seen, allSeen_texts]
  | nested replies => rw [seen, seen, allSeen_allSeen replies]

theorem allSeen_allSeen (rs : List Reply) : allSeen (allSeen rs) = allSeen rs := by
  match rs with
  | [] => rfl
  | r :: rest => rw [allSeen, allSeen, seen_seen r, allSeen_allSeen rest]

end

/-! ### Parts of an encoding end where they end -/

section
variable {x y : List Char}

theorem line_inj {a b : List Char} (ha : '\r' ∉ a) (hb : '\r' ∉ b)
    (h : a ++ lineEnd ++ x = b ++ lineEnd ++ y) : a = b ∧ x = y := by
  induction a generalizing b with
  | nil =>
    cases b with
    | nil => exact ⟨rfl, List.append_cancel_left h⟩
    | cons d b => exact absurd ((List.cons.inj h).1 ▸ List.mem_cons_self) hb
  | cons c a ih =>
    rw [List.mem_cons, not_or] at ha
    cases b with
    | nil => exact absurd (List.cons.inj h).1.symm ha.1
    | cons d b =>
      rw [List.mem_cons, not_or] at hb
      obtain ⟨rfl, hrest⟩ := List.cons.inj h
      obtain ⟨rfl, hxy⟩ := ih ha.2 hb.2 hrest
      exact ⟨rfl, hxy⟩

theorem return_not_mem_oneLine (s : String) : '\r' ∉ oneLine s := by
  rw [oneLine, List.mem_map]
  rintro ⟨c, -, hc⟩
  split at hc
  · cases hc
  · rename_i hplain
    exact hplain (.inl hc)

theorem oneLine_inj {s t : String} (h : oneLine s ++ lineEnd ++ x = oneLine t ++ lineEnd ++ y) :
    oneLine s = oneLine t ∧ x = y :=
  line_inj (return_not_mem_oneLine s) (return_not_mem_oneLine t) h

theorem integer_inj {n m : Int}
    (h : (toString n).toList ++ lineEnd ++ x = (toString m).toList ++ lineEnd ++ y) :
    n = m ∧ x = y := by
  have hline := line_inj ((Json.plain_int n).not_mem (by decide)) ((Json.plain_int m).not_mem (by decide)) h
  exact ⟨Int.repr_inj.1 (String.toList_inj.1 hline.1), hline.2⟩

theorem count_inj {n m : Nat}
    (h : (toString n).toList ++ lineEnd ++ x = (toString m).toList ++ lineEnd ++ y) :
    n = m ∧ x = y := by
  have hsame : (n : Int) = m ∧ x = y := integer_inj h
  exact ⟨Int.ofNat.inj hsame.1, hsame.2⟩

/-- Of two texts at the front of one text the longer one has more bytes. -/
theorem text_inj {s t : String} (h : s.toList ++ x = t.toList ++ y)
    (hsize : s.utf8ByteSize = t.utf8ByteSize) : s = t ∧ x = y := by
  have hempty {s t : String} {more : List Char} (hmore : t.toList = s.toList ++ more)
      (hsize : s.utf8ByteSize = t.utf8ByteSize) : more = [] := by
    have happend : t = s ++ String.ofList more := by
      rw [← String.toList_inj, hmore, String.toList_append, String.toList_ofList]
    rw [happend, String.utf8ByteSize_append, Nat.left_eq_add, String.utf8ByteSize_eq_zero_iff] at hsize
    rw [← String.toList_ofList (l := more), hsize]
    rfl
  have hst : s.toList = t.toList := by
    obtain ⟨more, hmore, -⟩ | ⟨more, hmore, -⟩ := List.append_eq_append_iff.1 h
    · rw [hmore, hempty hmore hsize, List.append_nil]
    · rw [hmore, hempty hmore hsize.symm, List.append_nil]
  rw [hst] at h
  exact ⟨String.toList_inj.1 hst, List.append_cancel_left h⟩

theorem bulkChars_inj {s t : String} (h : bulkChars s ++ x = bulkChars t ++ y) : s = t ∧ x = y := by
  simp only [bulkChars, List.append_assoc, List.cons_append, List.cons.injEq, true_and] at h
  obtain ⟨hsize, htext⟩ := count_inj (by simpa only [List.append_assoc] using h)
  obtain ⟨rfl, hend⟩ := text_inj htext hsize
  exact ⟨rfl, List.append_cancel_left hend⟩

/-- The length of a text is not minus one. -/
theorem bulkChars_ne_nil {s : String} (h : bulkChars s ++ x = chars (bulk none) ++ y) : False := by
  have hnone : chars (bulk none) = '$' :: ((toString (-1 : Int)).toList ++ lineEnd) := by decide
  simp only [bulkChars, hnone, List.append_assoc, List.cons_append, List.cons.injEq, true_and] at h
  have hline : (toString (s.utf8ByteSize : Int)).toList ++ lineEnd ++ (s.toList ++ (lineEnd ++ x)) =
      (toString (-1 : Int)).toList ++ lineEnd ++ y := by
    change (toString s.utf8ByteSize).toList ++ lineEnd ++ _ = _
    simpa only [List.append_assoc] using h
  have hsize := (integer_inj hline).1
  omega

theorem header_inj {n m : Nat} (h : header n ++ x = header m ++ y) : n = m ∧ x = y := by
  simp only [header, List.append_assoc, List.cons_append, List.cons.injEq, true_and] at h
  exact count_inj (by simpa only [List.append_assoc] using h)

end

/-! ### Replies end where they end -/

theorem chars_ne_nil (r : Reply) : chars r ≠ [] := by
  cases r with
  | bulk t => cases t <;> exact List.cons_ne_nil _ _
  | _ => exact List.cons_ne_nil _ _

/-- The first character tells the kind of a reply. -/
def mark : Reply → Char
  | simple _ => '+'
  | error _ => '-'
  | integer _ => ':'
  | bulk _ => '$'
  | array _ | nested _ => '*'

theorem head?_chars (r : Reply) : (chars r).head? = some (mark r) := by
  cases r with
  | bulk t => cases t <;> rfl
  | _ => rfl

theorem mark_inj {r s : Reply} {x y : List Char} (h : chars r ++ x = chars s ++ y) :
    mark r = mark s := by
  have hhead := congrArg List.head? h
  rw [List.head?_append, List.head?_append, head?_chars, head?_chars] at hhead
  exact Option.some.inj hhead

mutual

/-- Where one text begins with two replies, the client takes them for the same. -/
theorem chars_inj {r s : Reply} (hr : seen r = r) (hs : seen s = s) {x y : List Char}
    (h : chars r ++ x = chars s ++ y) : r = s ∧ x = y := by
  have hmark := mark_inj h
  match r, s, hmark with
  | simple a, simple b, _ =>
    rw [seen, simple.injEq] at hr hs
    obtain ⟨hline, hxy⟩ := oneLine_inj (List.cons.inj h).2
    rw [← hr, ← hs, hline]
    exact ⟨rfl, hxy⟩
  | error a, error b, _ =>
    rw [seen, error.injEq] at hr hs
    obtain ⟨hline, hxy⟩ := oneLine_inj (@List.append_cancel_left _ ['-', 'E', 'R', 'R', ' '] _ _ h)
    rw [← hr, ← hs, hline]
    exact ⟨rfl, hxy⟩
  | integer n, integer m, _ =>
    obtain ⟨rfl, hxy⟩ := integer_inj (List.cons.inj h).2
    exact ⟨rfl, hxy⟩
  | bulk none, bulk none, _ => exact ⟨rfl, List.append_cancel_left h⟩
  | bulk none, bulk (some b), _ => exact (bulkChars_ne_nil h.symm).elim
  | bulk (some a), bulk none, _ => exact (bulkChars_ne_nil h).elim
  | bulk (some a), bulk (some b), _ =>
    obtain ⟨rfl, hxy⟩ := bulkChars_inj h
    exact ⟨rfl, hxy⟩
  | nested rs, nested ss, _ =>
    rw [seen, nested.injEq] at hr hs
    rw [chars, chars, List.append_assoc, List.append_assoc] at h
    obtain ⟨hlength, hall⟩ := header_inj h
    obtain ⟨rfl, hxy⟩ := allChars_inj hr hs hlength hall
    exact ⟨rfl, hxy⟩
  | array _, _, _ => cases hr
  | _, array _, _ => cases hs

theorem allChars_inj {rs ss : List Reply} (hrs : allSeen rs = rs) (hss : allSeen ss = ss)
    (hlength : rs.length = ss.length) {x y : List Char}
    (h : allChars rs ++ x = allChars ss ++ y) : rs = ss ∧ x = y := by
  match rs, ss, hlength with
  | [], [], _ => exact ⟨rfl, h⟩
  | r :: rs, s :: ss, hlength =>
    rw [allSeen, List.cons.injEq] at hrs hss
    rw [allChars, allChars, List.append_assoc, List.append_assoc] at h
    obtain ⟨rfl, hrest⟩ := chars_inj hrs.1 hss.1 h
    obtain ⟨rfl, hxy⟩ := allChars_inj hrs.2 hss.2 (Nat.succ.inj hlength) hrest
    exact ⟨rfl, hxy⟩

end

/-- No sequence of replies ends inside another one. -/
theorem length_eq_of_allChars {rs ss : List Reply} (hrs : allSeen rs = rs) (hss : allSeen ss = ss)
    (h : allChars rs = allChars ss) : rs.length = ss.length := by
  induction rs generalizing ss with
  | nil =>
    cases ss with
    | nil => rfl
    | cons s ss => exact absurd (List.append_eq_nil_iff.1 h.symm).1 (chars_ne_nil s)
  | cons r rs ih =>
    cases ss with
    | nil => exact absurd (List.append_eq_nil_iff.1 h).1 (chars_ne_nil r)
    | cons s ss =>
      rw [allSeen, List.cons.injEq] at hrs hss
      rw [allChars, allChars] at h
      have hrest := (chars_inj hrs.1 hss.1 h).2
      rw [List.length_cons, List.length_cons, ih hrs.2 hss.2 hrest]

theorem toList_join_encode (rs : List Reply) : (String.join (rs.map encode)).toList = allChars rs := by
  induction rs with
  | nil => rfl
  | cons r rs ih =>
    rw [String.toList_join] at ih ⊢
    rw [List.map_cons, List.flatMap_cons, ih, encode, String.toList_ofList, allChars]

/-- What is sent for two sequences of replies is the same exactly when the client sees the same
replies in both. -/
theorem join_encode_eq_iff (rs ss : List Reply) :
    String.join (rs.map encode) = String.join (ss.map encode) ↔ rs.map seen = ss.map seen := by
  rw [← String.toList_inj, toList_join_encode, toList_join_encode, ← allChars_allSeen rs,
    ← allChars_allSeen ss, ← allSeen_eq_map, ← allSeen_eq_map]
  constructor
  · intro h
    have hlength := length_eq_of_allChars (allSeen_allSeen rs) (allSeen_allSeen ss) h
    exact (allChars_inj (allSeen_allSeen rs) (allSeen_allSeen ss) hlength (congrArg (· ++ []) h)).1
  · exact fun h => congrArg allChars h

end TierCache.Reply
