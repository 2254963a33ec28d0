import TierCache.Instance.Basic
import TierCache.Text.Blank

/-!
Descriptions of the parts of an instance for people who look for faults.
-/
namespace TierCache

/-- A name, then fields with their texts between braces. -/
def describeFields (name : String) (fields : List (String × String)) : String :=
  let parts := fields.map fun (field, text) => field ++ ": " ++ text
  name ++ " \x7b " ++ String.intercalate ", " parts ++ " \x7d"

namespace Describe

/-- Ranges of characters that do not show by themselves, besides controls and blanks: format
characters, marks that combine with the character before them, and characters for private use. -/
def hiddenRanges : List (Nat × Nat) :=
  [(0xAD, 0xAD), (0x300, 0x36F), (0x483, 0x489), (0x591, 0x5BD), (0x600, 0x605), (0x610, 0x61A),
    (0x61C, 0x61C), (0x64B, 0x65F), (0x180B, 0x180F), (0x1AB0, 0x1ACE), (0x1DC0, 0x1DFF),
    (0x200B, 0x200F), (0x202A, 0x202E), (0x2060, 0x206F), (0x20D0, 0x20F0), (0xE000, 0xF8FF),
    (0xFE00, 0xFE0F), (0xFE20, 0xFE2F), (0xFEFF, 0xFEFF), (0xFFF0, 0xFFFB), (0xE0000, 0x10FFFF)]

/-- Whether a character is written by its number. -/
def isHidden (c : Char) : Bool :=
  let n := c.toNat
  n < 0x20 || (0x7F ≤ n && n < 0xA0) || (c ≠ ' ' && Text.isBlank c) ||
    hiddenRanges.any fun (low, high) => low ≤ n && n ≤ high

/-- A character inside quotes. -/
def escape (c : Char) : List Char :=
  if c = '"' || c = '\\' then ['\\', c]
  else if c = '\n' then ['\\', 'n']
  else if c = '\r' then ['\\', 'r']
  else if c = '\t' then ['\\', 't']
  else if c.toNat = 0 then ['\\', '0']
  else if isHidden c then '\\' :: 'u' :: '\x7b' :: (Nat.toDigits 16 c.toNat ++ ['\x7d'])
  else [c]

/-- A text in quotes. -/
def quote (s : String) : String := String.ofList ('"' :: (s.toList.flatMap escape ++ ['"']))

end Describe

open Describe

variable {σ : Type}

def Engine.describe (e : Engine σ) : String :=
  describeFields "CacheEngine" [("default_region", quote e.defaultRegion),
    ("max_memory_objects", toString e.capacity), ("resident", toString e.resident)]

def Notifier.describe (n : Notifier) : String :=
  describeFields "ChangeNotifier" [("subscribers", toString n.changes.receiverCount),
    ("channels", toString n.channels.size)]

namespace Instance

/-- The part that carries out commands. -/
def describeCommands (i : Instance σ) : String :=
  describeFields "CommandProcessor" [("engine", i.engine.describe)]

def describeRole (i : Instance σ) : String :=
  describeFields "ReplicationService" [("instance_id", quote i.settings.instanceId),
    ("is_primary", toString i.member.isPrimary)]

end Instance
end TierCache
