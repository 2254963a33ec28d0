import TierCache.Store.FileName

/-!
The name of a region's log is one plain name in the directory. It leads back to the region, so
different regions have different logs, and the file that a log is rewritten to is no log.
-/
namespace TierCache.FileName

/-- The characters that stand for a byte. -/
def byteChars (b : UInt8) : List Char :=
  if isSafe b then [Char.ofNat b.toNat] else '%' :: Text.hexByte b

theorem hexPair?_hexByte : ∀ n < 256,
    hexPair? (Text.hexDigit (n / 16)) (Text.hexDigit (n % 16)) = some (UInt8.ofNat n) := by
  decide +kernel

theorem safe_byte : ∀ n < 256, isSafe (UInt8.ofNat n) = true →
    Char.ofNat n ≠ '%' ∧ Text.encode (String.singleton (Char.ofNat n)) = [UInt8.ofNat n] := by
  decide +kernel

theorem bytes?_byteChars (b : UInt8) (rest : List Char) :
    bytes? (byteChars b ++ rest) = (bytes? rest).map (b :: ·) := by
  rw [byteChars]
  split
  · rename_i hsafe
    obtain ⟨hpercent, hbyte⟩ := safe_byte b.toNat b.toNat_lt (by simpa using hsafe)
    rw [UInt8.ofNat_toNat] at hbyte
    rw [List.singleton_append, bytes?, if_neg hpercent, hbyte]
    · rfl
    · rintro x y zs heq
      exact absurd heq hpercent
  · have hpair := hexPair?_hexByte b.toNat b.toNat_lt
    rw [UInt8.ofNat_toNat] at hpair
    rw [Text.hexByte, List.cons_append, List.cons_append, List.singleton_append, bytes?, hpair]

theorem bytes?_flatMap (bs : List UInt8) : bytes? (bs.flatMap byteChars) = some bs := by
  induction bs with
  | nil => rfl
  | cons b bs ih => rw [List.flatMap_cons, bytes?_byteChars, ih, Option.map_some]

theorem decode?_encode_bytes (s : String) : Text.decode? (Text.encode s) = some s := by
  have hbytes : ByteArray.mk (Text.encode s).toArray = s.toByteArray := by
    rw [Text.encode, String.toUTF8_eq_toByteArray, Array.toArray_toList]
  have hvalid := s.isValidUTF8
  simp only [Text.decode?, hbytes, String.fromUTF8?, dif_pos hvalid]
  rfl

/-- A stem names the region that it was made of. -/
theorem decode?_encode (region : String) : decode? (encode region) = some region := by
  have hbytes : bytes? (encode region).toList = some (Text.encode region) := by
    rw [encode, String.toList_ofList]
    exact bytes?_flatMap _
  rw [decode?, hbytes, Option.bind_some, decode?_encode_bytes]

theorem encode_ne {region : String} (h : region ≠ "") : (encode region).toList ≠ [] := by
  intro hnil
  have hdecode := decode?_encode region
  rw [decode?, hnil] at hdecode
  exact h (Option.some.inj hdecode).symm

/-- A name with a dot behind a stem. -/
theorem split_dotted {stem : String} (h : stem.toList ≠ []) {last : String}
    (hlast : '.' ∉ last.toList) : split (stem ++ "." ++ last) = (stem, some last) := by
  obtain ⟨c, before, hstem⟩ := List.exists_cons_of_ne_nil (List.reverse_ne_nil_iff.2 h)
  have hback : (stem ++ "." ++ last).toList.reverse =
      last.toList.reverse ++ '.' :: (c :: before) := by
    have hdot : ".".toList = ['.'] := rfl
    simp [hdot, hstem]
  have hplain : ∀ d ∈ last.toList.reverse, decide (d ≠ '.') = true := by
    intro d hd
    refine decide_eq_true ?_
    rintro rfl
    exact hlast (List.mem_reverse.1 hd)
  have hafter : (last.toList.reverse ++ '.' :: (c :: before)).takeWhile (· ≠ '.') =
      last.toList.reverse := by
    rw [List.takeWhile_append_of_pos hplain]
    simp
  have hbefore : (last.toList.reverse ++ '.' :: (c :: before)).dropWhile (· ≠ '.') =
      '.' :: (c :: before) := by
    rw [List.dropWhile_append_of_pos hplain]
    simp
  have hwhole : (c :: before).reverse = stem.toList := by
    rw [← hstem, List.reverse_reverse]
  simp only [split, hback, hafter, hbefore, List.reverse_reverse, hwhole, String.ofList_toList]

theorem region?_ofRegion {region : String} (h : region ≠ "") :
    region? (ofRegion region) = some region := by
  rw [region?, ofRegion, split_dotted (encode_ne h) (by decide)]
  exact decode?_encode region

/-- A name of a log leads back to its region, but for `.log`, which has no extension. -/
theorem region?_ofRegion_cases (region : String) :
    (region = "" ∧ region? (ofRegion region) = none) ∨
      (region ≠ "" ∧ region? (ofRegion region) = some region) := by
  by_cases hregion : region = ""
  · subst hregion
    exact .inl ⟨rfl, by decide⟩
  · exact .inr ⟨hregion, region?_ofRegion hregion⟩

theorem ofRegion_inj {region other : String} (h : ofRegion region = ofRegion other) :
    region = other := by
  rw [ofRegion, ofRegion, String.append_left_inj, String.append_left_inj] at h
  exact Option.some.inj ((decode?_encode region).symm.trans (h ▸ decode?_encode other))

/-- What a log is rewritten to is not taken for a log. -/
theorem rewritten_ne (name region : String) : rewritten name ≠ ofRegion region := by
  intro heq
  have hlast := congrArg (fun s : String => s.toList.getLast?) heq
  simp [rewritten, ofRegion, extension, String.toList_append] at hlast

/-! ### The region without a name -/

theorem encode_of_decode? {bs : List UInt8} {s : String} (h : Text.decode? bs = some s) :
    Text.encode s = bs := by
  rw [Text.decode?, String.fromUTF8?] at h
  split at h
  · cases h
    rfl
  · cases h

theorem bytes?_ne_nil {cs : List Char} (h : cs ≠ []) : bytes? cs ≠ some [] := by
  intro hnil
  fun_cases bytes? cs with
  | case1 => exact h rfl
  | case2 a b rest byte hpair => simp [bytes?, hpair] at hnil
  | case3 a b rest hpair => simp [bytes?, hpair] at hnil
  | case4 rest hend => simp [bytes?] at hnil
  | case5 c rest hend hc =>
    rw [bytes?, if_neg hc, Option.map_eq_some_iff] at hnil
    · obtain ⟨bs, -, hbytes⟩ := hnil
      have hback := decode?_encode_bytes (String.singleton c)
      have hempty : Text.encode "" = [] := by decide
      rw [(List.append_eq_nil_iff.1 hbytes).1, ← hempty, decode?_encode_bytes] at hback
      simpa using congrArg (Option.map String.toList) hback
    · exact hend

theorem stem_ne {name stem last : String} (h : split name = (stem, some last)) :
    stem.toList ≠ [] := by
  rw [split] at h
  split at h
  · cases h
    simp
  · cases h

/-- No file is taken for the log of the region without a name. -/
theorem region?_ne_unnamed (name : String) : region? name ≠ some "" := by
  intro heq
  rw [region?] at heq
  split at heq
  · rename_i stem last hsplit
    split at heq
    · obtain ⟨bs, hbytes, hdecode⟩ := Option.bind_eq_some_iff.1 heq
      rw [← encode_of_decode? hdecode] at hbytes
      exact bytes?_ne_nil (stem_ne hsplit) hbytes
    · cases heq
  · cases heq

/-! ### Plain names -/

/-- A character that no file system takes for anything but a part of a name. -/
def Plain (c : Char) : Prop := c.isAlphanum ∨ c ∈ ['_', '-', '%', '.']

instance : DecidablePred Plain := fun _ => inferInstanceAs (Decidable (_ ∨ _))

theorem plain_hexDigit : ∀ n < 16, Plain (Text.hexDigit n) := by
  decide +kernel

theorem plain_safe : ∀ n < 256, isSafe (UInt8.ofNat n) = true → Plain (Char.ofNat n) := by
  decide +kernel

theorem plain_byteChars (b : UInt8) : ∀ c ∈ byteChars b, Plain c := by
  rw [byteChars]
  split
  · rename_i hsafe
    rw [List.forall_mem_singleton]
    exact plain_safe b.toNat b.toNat_lt (by simpa using hsafe)
  · rw [Text.hexByte, List.forall_mem_cons, List.forall_mem_cons, List.forall_mem_singleton]
    have hsize := b.toNat_lt
    exact ⟨by decide, plain_hexDigit _ (by omega), plain_hexDigit _ (by omega)⟩

theorem plain_ofRegion (region : String) : ∀ c ∈ (ofRegion region).toList, Plain c := by
  rw [ofRegion, encode, String.toList_append, String.toList_append, String.toList_ofList]
  simp only [List.forall_mem_append]
  refine ⟨⟨fun c hc => ?_, ?_⟩, ?_⟩
  · obtain ⟨b, -, hb⟩ := List.mem_flatMap.1 hc
    exact plain_byteChars b c hb
  · simp [Plain]
  · simp [Plain, extension]

/-- The name is that of a file in the directory itself. -/
theorem ofRegion_ne_dots (region : String) : ofRegion region ≠ "." ∧ ofRegion region ≠ ".." := by
  constructor <;>
  · intro heq
    have hlast := congrArg (fun s : String => s.toList.getLast?) heq
    simp [ofRegion, extension, String.toList_append] at hlast

end TierCache.FileName
