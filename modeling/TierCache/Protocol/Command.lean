import TierCache.Error
import TierCache.Number.Decimal
import TierCache.Text.Base64
import TierCache.Text.Blank
import TierCache.Text.Integer
import TierCache.Text.Utf8

/-!
Commands and how they are read from tokens. The first token names the command in any case of
letters; a second token that starts with `@` names the region. All that is wrong with the arguments
shows here, before anything is carried out.
-/
namespace TierCache

inductive Command
  | ping (message : Option String)
  | echo (message : String)
  | set (key text : String) (seconds : Option Nat)
  | get (key : String)
  | incrBy (key : String) (delta : Int64)
  | append (key suffix : String)
  | delete (keys : List String)
  | countLive (keys : List String)
  | expire (key : String) (seconds : Int64)
  | ttl (key : String)
  | persist (key : String)
  | keys (pattern : String)
  | typeOf (key : String)
  | scan (cursor : Nat) (pattern : String) (count : Nat)
  | hset (key : String) (pairs : List (String × String))
  | hget (key field : String)
  | hgetAll (key : String)
  | hdel (key : String) (fields : List String)
  | pushHead (key : String) (items : List String)
  | pushTail (key : String) (items : List String)
  | popHead (key : String)
  | popTail (key : String)
  | listRange (key : String) (start stop : Int64)
  | listLength (key : String)
  | setAdd (key : String) (members : List String)
  | setMembers (key : String)
  | setRemove (key : String) (members : List String)
  | setContains (key member : String)
  | sortedAdd (key : String) (members : List (Binary64 × String))
  | sortedRange (key : String) (start stop : Int64) (withScores : Bool)
  | sortedRemove (key : String) (members : List String)
  | sortedScore (key member : String)
  | publish (channel message : String)
  /-- Deletes the region named, or else the one the command is for. -/
  | deleteRegion (name : Option String)
  | role
  | info
  deriving DecidableEq

namespace Command

/-- What can be wrong with a command's arguments. -/
inductive Fault
  | arity (command : String)
  | badOptions
  | badExpiry (command : String)
  | badBase64
  | notUtf8
  | badFloat
  | badCursor
  | emptyRegion
  | unknown (name : String)
  deriving DecidableEq, Repr

def Fault.message : Fault → String
  | arity command => "wrong number of arguments for '" ++ command ++ "' command"
  | badOptions => "syntax error"
  | badExpiry command => "invalid expire time in '" ++ command ++ "' command"
  | badBase64 => "invalid base64 value"
  | notUtf8 => "decoded value is not valid UTF-8"
  | badFloat => "value is not a valid float"
  | badCursor => "invalid cursor"
  | emptyRegion => "empty region name"
  | unknown name => "unknown command '" ++ name ++ "'"

abbrev Result := Except CacheError

def fail {α : Type} (f : Fault) : Result α := .error (.invalidRequest f.message)

def integer (s : String) : Result Int64 :=
  match Text.int64? s with
  | some n => .ok n
  | none => .error .notInteger

/-- A finite float. -/
def finite (s : String) : Result Binary64 :=
  match Binary64.ofText? s with
  | some x => if x.isFinite then .ok x else fail .badFloat
  | none => fail .badFloat

/-- Key, text and the seconds to live: two arguments, or four of which the third is `EX`. -/
def settings (command : String) : List String → Result (String × String × Option Nat)
  | [key, text] => .ok (key, text, none)
  | [key, text, option, seconds] =>
    if Text.upper option = "EX" then
      match integer seconds with
      | .error e => .error e
      | .ok n => if n ≤ 0 then fail (.badExpiry command) else .ok (key, text, some n.toInt.toNat)
    else fail .badOptions
  | _ => fail (.arity command)

/-- Text from canonical base64 of its UTF-8 bytes. -/
def base64Text (s : String) : Result String :=
  match Text.Base64.decode? s.toList with
  | none => fail .badBase64
  | some bytes => match Text.decode? bytes with
    | some text => .ok text
    | none => fail .notUtf8

/-- The options of a scan in pairs of name and value, over the pattern and count so far. -/
def scanOptions (pattern : String) (count : Nat) : List String → Result (String × Nat)
  | [] => .ok (pattern, count)
  | [_] => fail .badOptions
  | option :: value :: rest =>
    let name := Text.upper option
    if name = "MATCH" then scanOptions value count rest
    else if name = "COUNT" then
      match integer value with
      | .error e => .error e
      | .ok n => if n ≤ 0 then fail .badOptions else scanOptions pattern n.toInt.toNat rest
    else fail .badOptions

/-- The number of keys a page of a scan holds unless told otherwise. -/
def defaultCount : Nat := 10

/-- A cursor, then options. -/
def scanArguments (command : String) : List String → Result Command
  | [] => fail (.arity command)
  | cursor :: options => match integer cursor with
    | .error e => .error e
    | .ok n =>
      if n < 0 then fail .badCursor
      else (scanOptions "*" defaultCount options).map fun (pattern, count) =>
        .scan n.toInt.toNat pattern count

/-- Arguments two by two. -/
def pairUp {α β : Type} (read : String → Result α) (pair : α → String → β) :
    List String → Result (List β)
  | a :: b :: rest => match read a with
    | .error e => .error e
    | .ok a => (pairUp read pair rest).map (pair a b :: ·)
  | _ => .ok []

/-- A key followed by at least one pair. -/
def keyAndPairs {α β : Type} (command : String) (read : String → Result α)
    (pair : α → String → β) (make : String → List β → Command) : List String → Result Command
  | key :: a :: b :: rest =>
    if rest.length % 2 = 0 then (pairUp read pair (a :: b :: rest)).map (make key)
    else fail (.arity command)
  | _ => fail (.arity command)

/-- A key followed by at least one more argument. -/
def keyAndSome (command : String) (make : String → List String → Command) :
    List String → Result Command
  | key :: a :: rest => .ok (make key (a :: rest))
  | _ => fail (.arity command)

def one (command : String) (make : String → Command) : List String → Result Command
  | [a] => .ok (make a)
  | _ => fail (.arity command)

def two (command : String) (make : String → String → Command) : List String → Result Command
  | [a, b] => .ok (make a b)
  | _ => fail (.arity command)

/-- A key and an integer. -/
def keyAndInteger (command : String) (make : String → Int64 → Result Command) :
    List String → Result Command
  | [key, n] => match integer n with
    | .ok n => make key n
    | .error e => .error e
  | _ => fail (.arity command)

/-- A key and the two ends of a range. -/
def keyAndRange (key start stop : String) (make : String → Int64 → Int64 → Command) :
    Result Command :=
  match integer start, integer stop with
  | .ok a, .ok b => .ok (make key a b)
  | .error e, _ => .error e
  | _, .error e => .error e

/-- Subtracts; the least integer has no opposite. -/
def decrBy (key : String) (n : Int64) : Result Command :=
  match Text.neg64? n with
  | some m => .ok (.incrBy key m)
  | none => .error .notInteger

/-- The command of a name in capitals with its arguments; `first` is the name as it was given. -/
def ofName (first : String) (args : List String) : Result Command :=
  let cmd := Text.lower first
  match Text.upper first with
  | "PING" => match args with
    | [] => .ok (.ping none)
    | [message] => .ok (.ping (some message))
    | _ => fail (.arity cmd)
  | "ECHO" => one cmd .echo args
  | "SET" => (settings cmd args).map fun (key, text, seconds) => .set key text seconds
  | "SETB64" => match settings cmd args with
    | .error e => .error e
    | .ok (key, text, seconds) => (base64Text text).map fun text => .set key text seconds
  | "GET" => one cmd .get args
  | "INCR" => one cmd (.incrBy · 1) args
  | "DECR" => one cmd (.incrBy · (-1)) args
  | "INCRBY" => keyAndInteger cmd (fun key n => .ok (.incrBy key n)) args
  | "DECRBY" => keyAndInteger cmd decrBy args
  | "APPEND" => two cmd .append args
  | "DEL" => match args with
    | [] => fail (.arity cmd)
    | args => .ok (.delete args)
  | "EXISTS" => match args with
    | [] => fail (.arity cmd)
    | args => .ok (.countLive args)
  | "EXPIRE" => keyAndInteger cmd (fun key n => .ok (.expire key n)) args
  | "TTL" => one cmd .ttl args
  | "PERSIST" => one cmd .persist args
  | "KEYS" => one cmd .keys args
  | "TYPE" => one cmd .typeOf args
  | "SCAN" => scanArguments cmd args
  | "HSET" => keyAndPairs cmd .ok Prod.mk .hset args
  | "HGET" => two cmd .hget args
  | "HGETALL" => one cmd .hgetAll args
  | "HDEL" => keyAndSome cmd .hdel args
  | "LPUSH" => keyAndSome cmd .pushHead args
  | "RPUSH" => keyAndSome cmd .pushTail args
  | "LPOP" => one cmd .popHead args
  | "RPOP" => one cmd .popTail args
  | "LRANGE" => match args with
    | [key, start, stop] => keyAndRange key start stop .listRange
    | _ => fail (.arity cmd)
  | "LLEN" => one cmd .listLength args
  | "SADD" => keyAndSome cmd .setAdd args
  | "SMEMBERS" => one cmd .setMembers args
  | "SREM" => keyAndSome cmd .setRemove args
  | "SISMEMBER" => two cmd .setContains args
  | "ZADD" => keyAndPairs cmd finite Prod.mk .sortedAdd args
  | "ZRANGE" => match args with
    | [key, start, stop] => keyAndRange key start stop (.sortedRange · · · false)
    | [key, start, stop, option] =>
      if Text.upper option = "WITHSCORES" then
        keyAndRange key start stop (.sortedRange · · · true)
      else fail .badOptions
    | _ => fail (.arity cmd)
  | "ZREM" => keyAndSome cmd .sortedRemove args
  | "ZSCORE" => two cmd .sortedScore args
  | "PUBLISH" => two cmd .publish args
  | "DELREGION" => match args with
    | [] => .ok (.deleteRegion none)
    | [name] => .ok (.deleteRegion (some name))
    | _ => fail (.arity cmd)
  | "ROLE" => match args with
    | [] => .ok .role
    | _ => fail (.arity cmd)
  | "INFO" => .ok .info
  | _ => fail (.unknown first)

/-- The region that the first argument names, if it names one, and the other arguments. -/
def splitRegion : List String → Result (Option String × List String)
  | [] => .ok (none, [])
  | first :: rest => match first.toList with
    | ['@'] => fail .emptyRegion
    | '@' :: name => .ok (some (String.ofList name), rest)
    | _ => .ok (none, first :: rest)

/-- The command that tokens make up, and the region they name. -/
def ofTokens : List String → Result (Option String × Command)
  | [] => .error (.malformedLine "empty command")
  | first :: rest => match splitRegion rest with
    | .error e => .error e
    | .ok (region, args) => (ofName first args).map (region, ·)

end Command
end TierCache
