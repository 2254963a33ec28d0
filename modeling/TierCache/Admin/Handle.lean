import TierCache.Admin.Request
import TierCache.Admin.Response
import TierCache.Admin.Route
import TierCache.Instance.Basic

/-!
Requests to the admin interface carried out by an instance.
-/
namespace TierCache.Admin

variable {σ : Type} [Store σ]

/-- Runs an operation of the engine and makes its result a response. -/
def answer {α : Type} (i : Instance σ) (now : Nat) (op : Engine σ → α × Engine σ)
    (response : α → Response) : Response × Instance σ :=
  let (result, i) := i.run now op
  (response result, i)

/-- Goes on with a region's name unless there is something wrong with it. -/
def withRegion (i : Instance σ) (name : String) (next : Response × Instance σ) :
    Response × Instance σ :=
  match nameProblem? "region" name with
  | some why => (.invalid why, i)
  | none => next

def healthBody (i : Instance σ) (now : Nat) : Json :=
  .obj [("status", .str "healthy"),
    ("role", .str (if i.member.isPrimary then "PRIMARY" else "SECONDARY")),
    ("timestamp", .str (Text.timestamp now))]

/-- The counts of all regions. -/
def regionsBody (defaultRegion : String) (counts : List RegionCounts) : Json :=
  .obj [("default_region", .str defaultRegion), ("regions", .arr (counts.map RegionCounts.toJson))]

def listRegions (i : Instance σ) (now : Nat) : Response × Instance σ :=
  answer i now (fun e =>
    let (names, e) := e.regionNames
    e.allCounts names) fun counts => .ok (regionsBody i.engine.defaultRegion counts)

def keysBody (region pattern : String) (keys : List String) : Json :=
  .obj [("region", .str region), ("pattern", .str pattern), ("count", .nat keys.length),
    ("keys", .arr (keys.map .str))]

def listKeys (i : Instance σ) (now : Nat) (region : String) (query : List Char) :
    Response × Instance σ :=
  match KeysQuery.ofPairs? (Text.formPairs query) with
  | none => (.bare 400, i)
  | some q => withRegion i region <|
    answer i now (fun e => e.keys now region q.patternText) fun keys =>
      .ok (keysBody region q.patternText keys)

/-- A key that is not there. -/
def noSuchKey (region key : String) : Response := .ofError (.notFound (key ++ "@" ++ region))

def getKey (i : Instance σ) (now : Nat) (region key : String) : Response × Instance σ :=
  withRegion i region <| answer i now (fun e => e.getEntry now region key) fun
    | some entry => .ok (entry.describe now)
    | none => noSuchKey region key

def deleteKey (i : Instance σ) (now : Nat) (region key : String) : Response × Instance σ :=
  withRegion i region <| answer i now (fun e => e.delete region [key]) fun n =>
    if n = 0 then noSuchKey region key else .message "Key deleted successfully" region key

/-- Sets a key to the text of a request. -/
def setKey (i : Instance σ) (now : Nat) (region key : String) (r : PutRequest) :
    Response × Instance σ :=
  withRegion i region <| match (nameProblem? "key" key).or r.problem? with
    | some why => (.invalid why, i)
    | none =>
      answer i now (fun e =>
        e.set now region key r.value (r.ttl.map (Engine.secondsAfter now))) fun
        | .ok () => .message "Key set successfully" region key
        | .error err => .ofError err

/-- Sets a key to the text in the body, which has to be JSON and to say so. -/
def putKey (i : Instance σ) (now : Nat) (region key : String) (r : Request) :
    Response × Instance σ :=
  if ((r.contentType.bind Text.MediaType.ofText?).map Text.MediaType.isJson).getD false then
    match PutRequest.ofBody r.body with
    | .error .malformed => (.bare 400, i)
    | .error .mismatched => (.bare 422, i)
    | .ok put => setKey i now region key put
  else (.bare 415, i)

def deleteRegion (i : Instance σ) (now : Nat) (region : String) : Response × Instance σ :=
  withRegion i region <| answer i now (fun e => e.deleteRegion region) fun
    | .ok () => .message "Region deleted successfully" region none
    | .error err => .ofError err

/-- Carries out a request on a route that knows its method. Names that are not UTF-8 are refused. -/
def carryOut (i : Instance σ) (now : Nat) (r : Request) (query : List Char) (m : Method) :
    Route → Response × Instance σ
  | .health => (.ok (healthBody i now), i)
  | .stats => (.ok i.engine.snapshot.toJson, i)
  | .status => (.ok i.member.status.toJson, i)
  | .regions => listRegions i now
  | .region name => match Text.percentDecode? name with
    | none => (.bare 400, i)
    | some region => match m with
      | .delete => deleteRegion i now region
      | _ => withRegion i region <|
        answer i now (fun e => e.regionCounts region) fun counts => .ok counts.toJson
  | .keys name => match Text.percentDecode? name with
    | none => (.bare 400, i)
    | some region => listKeys i now region query
  | .key region key => match Text.percentDecode? region, Text.percentDecode? key with
    | some region, some key => match m with
      | .get => getKey i now region key
      | .put => putKey i now region key r
      | .delete => deleteKey i now region key
    | _, _ => (.bare 400, i)

/-- The response to a request as it stands before its body is left out. -/
def respond (i : Instance σ) (now : Nat) (r : Request) : Response × Instance σ :=
  let (path, query) := splitTarget r.target.toList
  match Route.ofPath? path with
  | none => (.bare 404, i)
  | some route => match Method.ofName? r.method with
    | some m => if m ∈ route.methods then carryOut i now r query m route else (.bare 405, i)
    | none => (.bare 405, i)

/-- Carries out a request. Every path answers a question for its options, and a request for the head
alone has no body. -/
def handle (i : Instance σ) (now : Nat) (r : Request) : Response × Instance σ :=
  if r.method = "OPTIONS" then (.bare 200, i)
  else
    let (response, i) := respond i now r
    (if r.method = "HEAD" then { response with body := none } else response, i)

end TierCache.Admin
