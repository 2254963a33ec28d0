import Mathlib
import TierCache.Proofs.Channel
import TierCache.Proofs.Json.Records
import TierCache.Proofs.Store.FileName
import TierCache.Proofs.Store.LogText
import TierCache.Replication.Frame

/-!
Frames reach the subscribers of their topic, each once and in order, whatever other lines stand
between them, up to the first line that is not UTF-8.
-/
namespace TierCache
open Std

namespace Text

theorem encode_ofList (cs : List Char) :
    encode (String.ofList cs) = cs.flatMap String.utf8EncodeChar := by
  rw [encode, String.toUTF8_eq_toByteArray, String.toByteArray_ofList, List.utf8Encode,
    List.data_toByteArray, List.toList_toArray]

/-- Only a control character has a line feed among its bytes. -/
theorem lineFeed_not_mem_char {c : Char} (h : 0x20 ≤ c.toNat) :
    (10 : UInt8) ∉ String.utf8EncodeChar c := by
  have hbyte : ∀ n, 10 < n → n < 256 → (10 : UInt8) ≠ UInt8.ofNat n := by
    intro n hlow hhigh heq
    have hnat : 10 = n % 256 := congrArg UInt8.toNat heq
    omega
  have hc : 0x20 ≤ c.val.toNat := h
  unfold String.utf8EncodeChar
  dsimp only
  generalize c.val.toNat = v at hc
  -- a byte is the character itself, or its high bit is set
  split_ifs <;> simp only [List.mem_cons, List.not_mem_nil, or_false, not_or]
  · exact hbyte v (by omega) (by omega)
  · refine ⟨hbyte _ ?_ ?_, hbyte _ ?_ ?_⟩ <;> omega
  · refine ⟨hbyte _ ?_ ?_, hbyte _ ?_ ?_, hbyte _ ?_ ?_⟩ <;> omega
  · refine ⟨hbyte _ ?_ ?_, hbyte _ ?_ ?_, hbyte _ ?_ ?_, hbyte _ ?_ ?_⟩ <;> omega

theorem lineFeed_not_mem {cs : List Char} (h : Json.Plain cs) :
    (10 : UInt8) ∉ encode (String.ofList cs) := by
  rw [encode_ofList, List.mem_flatMap]
  rintro ⟨c, hc, hmem⟩
  exact lineFeed_not_mem_char (h c hc) hmem

end Text

namespace Replication

/-- What a connection carries: published frames, and lines that someone else wrote. -/
inductive Sent
  | frame (f : Frame)
  | other (line : List UInt8)

namespace Sent

def bytes : Sent → List UInt8
  | frame f => Text.encode f.line
  | other line => line ++ [10]

def frame? : Sent → Option Frame
  | frame f => some f
  | other _ => none

/-- The bytes without the line feed at their end. -/
def line : Sent → List UInt8
  | frame f => Text.encode f.toJson.render
  | other line => line

/-- Whether the line is UTF-8. -/
def isText (s : Sent) : Bool := (Text.decode? s.line).isSome

/-- What is no published frame is a single line, and not one that reads as a frame. -/
def Apart : Sent → Prop
  | frame _ => True
  | other line => 10 ∉ line ∧ ∀ text ∈ Text.decode? line,
      Frame.ofLine? (Text.dropReturn text.toList) = none

theorem bytes_eq (s : Sent) : s.bytes = s.line ++ [10] := by
  cases s with
  | frame f =>
    have hline : f.line = String.ofList (f.toJson.chars ++ ['\n']) := by
      rw [String.ofList_append]
      rfl
    rw [bytes, hline, Text.encode_ofList, List.flatMap_append, ← Text.encode_ofList]
    rfl
  | other line => rfl

theorem Apart.lineFeed_not_mem {s : Sent} (h : s.Apart) : 10 ∉ s.line := by
  cases s with
  | frame f => exact Text.lineFeed_not_mem (Json.plain_chars _)
  | other line => exact h.1

end Sent

namespace Frame
open Json

theorem ofLine?_chars (f : Frame) : ofLine? f.toJson.chars = some f := by
  have hnodup : ["topic", "key", "payload"].Nodup := by decide
  have hrecord := @Raw.record_named [("topic", written (.str f.topic)),
    ("key", written (.str f.record.key)), ("payload", written (.str f.record.payload))] hnodup 3
  have hread : ofRaw (written f.toJson) = .ok f := (congrArg (· >>= _) hrecord).trans rfl
  rw [ofLine?, ofChars_chars, hread]
  rfl

theorem splitBytes_append {line : List UInt8} (h : 10 ∉ line) (rest : List UInt8) :
    splitBytes (line ++ 10 :: rest) = line :: splitBytes rest := by
  induction line with
  | nil => rfl
  | cons b line ih =>
    rw [List.mem_cons, not_or] at h
    rw [List.cons_append, splitBytes, if_neg (Ne.symm h.1), ih h.2]

/-- A line of text gives its frame and lets the connection go on; one that is not UTF-8 ends it. -/
theorem ofLines_line {s : Sent} (h : s.Apart) (lines : List (List UInt8)) :
    ofLines (s.line :: lines) = if s.isText then s.frame?.toList ++ ofLines lines else [] := by
  cases s with
  | frame f =>
    have hplain : Plain f.toJson.chars := plain_chars _
    have hblank : Text.isBlankLine f.toJson.chars = false := rfl
    have hdecode : Text.decode? (Sent.frame f).line = some f.toJson.render :=
      FileName.decode?_encode_bytes _
    rw [ofLines, Sent.isText, hdecode]
    simp only [render, String.toList_ofList, Text.dropReturn_of_not_mem
      (hplain.not_mem (c := '\r') (by decide)), hblank, ofLine?_chars]
    rfl
  | other line =>
    rw [ofLines, Sent.isText, Sent.line]
    cases hdecode : Text.decode? line with
    | none => rfl
    | some text =>
      simp only [h.2 text hdecode, ite_self]
      rfl

/-- A connection gives the frames that were sent before the first line that is not UTF-8. -/
theorem ofBytes_sent {sent : List Sent} (h : ∀ s ∈ sent, s.Apart) :
    ofBytes (sent.flatMap Sent.bytes) = (sent.takeWhile Sent.isText).filterMap Sent.frame? := by
  induction sent with
  | nil => rfl
  | cons s sent ih =>
    rw [List.forall_mem_cons] at h
    have hsplit : splitBytes ((s :: sent).flatMap Sent.bytes) =
        s.line :: splitBytes (sent.flatMap Sent.bytes) := by
      rw [List.flatMap_cons, s.bytes_eq, List.append_assoc, List.singleton_append,
        splitBytes_append h.1.lineFeed_not_mem]
    rw [ofBytes, hsplit, ofLines_line h.1, List.takeWhile_cons]
    split
    · have hrest := ih h.2
      rw [ofBytes] at hrest
      rw [hrest]
      cases s <;> rfl
    · rfl

/-- Gives frames from a peer to the local subscribers, one after another. -/
def deliverAll (fs : List Frame) (l : Log) : Log := fs.foldl (fun l f => f.deliver l) l

/-- The records of a topic among frames. -/
def recordsOf (topic : String) (fs : List Frame) : List Record :=
  (fs.filter (·.topic = topic)).map (·.record)

theorem channel_deliver (f : Frame) (l : Log) (topic : String) :
    (f.deliver l).channel topic =
      if f.topic = topic then ((l.channel topic).publish f.record).2 else l.channel topic := by
  rw [deliver, Log.publish, Log.channel, Tree.get_insert]
  split
  · rename_i heq
    rw [heq]
    rfl
  · rfl

/-- A topic gets its own records, each once and in order, and none of another topic. -/
theorem channel_deliverAll (fs : List Frame) (l : Log) (topic : String) :
    (deliverAll fs l).channel topic = (l.channel topic).publishAll (recordsOf topic fs) := by
  induction fs generalizing l with
  | nil => rfl
  | cons f fs ih =>
    have hrest := ih (f.deliver l)
    rw [channel_deliver] at hrest
    rw [deliverAll, List.foldl_cons, ← deliverAll, hrest, recordsOf, recordsOf, List.filter_cons]
    by_cases htopic : f.topic = topic
    · simp only [htopic, decide_true, if_true, List.map_cons, Channel.publishAll_cons]
    · simp only [htopic, decide_false, Bool.false_eq_true, if_false]

/-- Whatever lines stand between the frames of a connection, each topic gets its records that were
sent before the first line that is not UTF-8, each once and in order: all of them where there is no
such line. They reach every subscriber that nothing else waits for and that does not fall behind. -/
theorem delivered_before_garbled {sent : List Sent} (h : ∀ s ∈ sent, s.Apart) (l : Log)
    (topic : String) :
    let told := recordsOf topic ((sent.takeWhile Sent.isText).filterMap Sent.frame?)
    let after := deliverAll (ofBytes (sent.flatMap Sent.bytes)) l
    after.channel topic = (l.channel topic).publishAll told ∧
      (∀ receiver, (l.channel topic).receivers[receiver]? = some (l.channel topic).sent →
        told.length ≤ (l.channel topic).capacity →
          (after.drain ⟨topic, receiver⟩).1 = told.map Delivery.message) ∧
      ((∀ s ∈ sent, s.isText = true) → told = recordsOf topic (sent.filterMap Sent.frame?)) := by
  intro told after
  have hchannel : after.channel topic = (l.channel topic).publishAll told := by
    rw [channel_deliverAll, ofBytes_sent h]
  refine ⟨hchannel, fun receiver hthere hroom => ?_, fun htext => ?_⟩
  · rw [Log.drain, hchannel, Channel.drain_publishAll hthere hroom]
  · have hall : sent.takeWhile Sent.isText = sent := List.takeWhile_eq_self_iff.2 htext
    simp only [told, hall]

/-- Frames of two topics, lines that are no frames, and one that is not UTF-8. -/
def interrupted : List Sent :=
  [.frame ⟨"t", "1", "a"⟩, .other (Text.encode "not json"), .other [], .frame ⟨"u", "1", "b"⟩,
    .frame ⟨"t", "2", "\"é\"\n"⟩, .other [0xFF], .frame ⟨"t", "3", "c"⟩]

theorem apart_interrupted : ∀ s ∈ interrupted, s.Apart := by
  have hline : (Sent.other (Text.encode "not json")).Apart := by
    refine ⟨by decide, fun text htext => ?_⟩
    rw [FileName.decode?_encode_bytes] at htext
    cases htext
    decide
  have hblank : (Sent.other []).Apart := by
    refine ⟨List.not_mem_nil, fun text htext => ?_⟩
    rw [show Text.decode? [] = some "" by decide] at htext
    cases htext
    decide
  have hgarbled : (Sent.other [0xFF]).Apart := by
    refine ⟨by decide, fun text htext => ?_⟩
    rw [show Text.decode? [0xFF] = none by decide] at htext
    cases htext
  simp only [interrupted, List.forall_mem_cons]
  exact ⟨trivial, hline, hblank, trivial, trivial, hgarbled, trivial, List.forall_mem_nil _⟩

theorem delivered_before_garbled_interrupted :
    (∀ s ∈ interrupted, s.Apart) ∧
      ((deliverAll (ofBytes (interrupted.flatMap Sent.bytes)) ((Log.empty 8).subscribe "t").2).drain
        ⟨"t", 0⟩).1 = [.message ⟨"1", "a"⟩, .message ⟨"2", "\"é\"\n"⟩] := by
  have hdelivered :=
    (delivered_before_garbled apart_interrupted ((Log.empty 8).subscribe "t").2 "t").2.1 0
  have htold : recordsOf "t" ((interrupted.takeWhile Sent.isText).filterMap Sent.frame?) =
      [⟨"1", "a"⟩, ⟨"2", "\"é\"\n"⟩] := by
    decide
  rw [htold] at hdelivered
  exact ⟨apart_interrupted, hdelivered (by cbv) (by cbv)⟩

/-- The frame behind the line that is not UTF-8 is lost. -/
theorem lost_behind_garbled :
    (∀ s ∈ interrupted, s.Apart) ∧
      recordsOf "t" (ofBytes (interrupted.flatMap Sent.bytes)) ≠
        recordsOf "t" (interrupted.filterMap Sent.frame?) := by
  refine ⟨apart_interrupted, ?_⟩
  rw [ofBytes_sent apart_interrupted]
  decide

end Frame
end Replication
end TierCache
