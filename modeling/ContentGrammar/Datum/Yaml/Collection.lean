import ContentGrammar.Datum.Word
import ContentGrammar.Datum.Yaml.Token

/-!
# Collections of a YAML text

The tokens of a YAML text are put together to lists and records. A `Frame` is a collection that has
begun and not ended, and `Frame.step` says what a token does to the innermost one: a token may go on
with it, end it, or begin a value in it. Values and keys may be left out. Two fields of a record
have different keys. The value of a field `<<` is a record, or a list of records, of which all
fields are taken over that the record does not have itself.
-/

namespace ContentGrammar

namespace Yaml

/-- How a list is written. -/
inductive ListStyle
  | block
  /-- In block style at the indentation of the record in which it is a value. -/
  | inner
  | flow

/-- How a record is written. -/
inductive RecordStyle
  | block
  | flow
  /-- As a pair of key and value in a flow list. -/
  | pair
  deriving DecidableEq

/-- What is known of the next field of a record. -/
inductive Slot
  /-- Nothing. -/
  | free
  /-- That it may not begin here. -/
  | filled
  /-- That its key comes next. -/
  | key
  | keyed (key : Datum)
  /-- That the value of a key comes next. -/
  | value (key : Datum)

/-- A collection that is still open, with what it holds so far, latest first. -/
inductive Frame
  /-- A list, in which an item may come next if `awaits`. -/
  | list (style : ListStyle) (items : List Datum) (awaits : Bool)
  /-- A record. -/
  | record (style : RecordStyle) (fields : List (Datum × Datum)) (slot : Slot)

/-- What is left out. -/
def missing : Datum := .word ""

/-! ### Fields -/

/-- Whether two keys are the same, which does not depend on quotes. -/
def sameKey : Datum → Datum → Bool
  | .word a, .word b | .word a, .text b | .text a, .word b | .text a, .text b => a == b
  | _, _ => false

/-- Whether the fields of the value of a key are taken over. -/
def isMerge : Datum → Bool
  | .word s => s == "<<"
  | _ => false

/-- The fields with one more, which must not have the key of another one. -/
def addField (fields : List (Datum × Datum)) (key d : Datum) :
    Except String (List (Datum × Datum)) :=
  if !isMerge key && fields.any (sameKey key ·.1) then .error "repeated key"
  else .ok ((key, d) :: fields)

mutual

/-- The fields that are taken over from a value. -/
def takenOver : Datum → Except String (List (Datum × Datum))
  | .record fields => .ok fields
  | .list items => takenOverFrom items
  | .word s => if Datum.isNullWord s then .ok [] else .error "fields of a text"
  | _ => .error "fields of a text"

/-- The fields that are taken over from several values, those of the last one first. -/
def takenOverFrom : List Datum → Except String (List (Datum × Datum))
  | [] => .ok []
  | d :: ds => do
    let later ← takenOverFrom ds
    return later ++ (← takenOver d)

end

/-- The record of some fields, latest first. -/
def recordOf (fields : List (Datum × Datum)) : Except String Datum := do
  let own := fields.reverse.filter fun f => !isMerge f.1
  let others ← (fields.filter fun f => isMerge f.1).mapM fun f => takenOver f.2
  return .record <| others.flatten.foldl (fun all f =>
    if all.any (sameKey f.1 ·.1) then all else all ++ [f]) own

/-! ### Steps -/

namespace RecordStyle

/-- Whether a token shows that the key or value in front of it is left out. -/
def isOver : RecordStyle → Token → Bool
  | _, .value => true
  | .block, .key | .block, .blockEnd => true
  | .flow, .comma | .flow, .flowRecordEnd => true
  | .pair, .comma | .pair, .flowListEnd => true
  | _, _ => false

/-- What is known of the next field after a complete one. -/
def afterField (style : RecordStyle) : Slot := if style = .block then .free else .filled

/-- A record at a token, with what is left out in front of the token. -/
def fill (style : RecordStyle) (fields : List (Datum × Datum)) (slot : Slot) (t : Token) :
    Except String (List (Datum × Datum) × Slot) :=
  match slot, t with
  | .free, .value | .key, .value => .ok (fields, .keyed missing)
  | .keyed k, .value => .ok (fields, .keyed k)
  | .keyed k, _ => do return (← addField fields k missing, style.afterField)
  | .key, t => do
    if style.isOver t then return (← addField fields missing missing, style.afterField)
    else return (fields, .key)
  | .value k, t => do
    if style.isOver t then return (← addField fields k missing, style.afterField)
    else return (fields, .value k)
  | slot, _ => .ok (fields, slot)

end RecordStyle

/-- What a token does to the innermost collection. -/
inductive Step
  /-- It goes on with it. -/
  | stay (f : Frame)
  /-- It begins another collection in it. -/
  | enter (outer inner : Frame)
  /-- It ends it. -/
  | close (d : Datum)
  /-- It comes after the end of it. -/
  | leave (d : Datum)
  /-- It begins a value in it. -/
  | begin (f : Frame)

namespace Frame

/-- What a token does to a list. -/
def stepList (style : ListStyle) (items : List Datum) (awaits : Bool) (t : Token) :
    Except String Step :=
  let filled := if awaits then missing :: items else items
  match style, awaits, t with
  | .flow, _, .flowListEnd => .ok (.close (.list items.reverse))
  | .flow, true, .key => .ok (.enter (.list .flow items true) (.record .pair [] .key))
  | .flow, false, .comma => .ok (.stay (.list .flow items true))
  | .flow, false, _ => .error "missing comma"
  | .flow, true, _ => .ok (.begin (.list .flow items true))
  | style, _, .dash => .ok (.stay (.list style filled true))
  | .block, _, .blockEnd => .ok (.close (.list filled.reverse))
  | .block, false, _ => .error "missing dash"
  | .inner, _, .blockEnd | .inner, _, .key | .inner, _, .value | .inner, false, _ =>
    .ok (.leave (.list filled.reverse))
  | style, true, _ => .ok (.begin (.list style items true))

/-- What a token does to a record. -/
def stepRecord (style : RecordStyle) (fields : List (Datum × Datum)) (slot : Slot) (t : Token) :
    Except String Step := do
  let (fields, slot) ← style.fill fields slot t
  match style, slot, t with
  | _, .keyed k, _ => return .stay (.record style fields (.value k))
  | _, .key, _ | _, .value _, _ => return .begin (.record style fields slot)
  | .pair, _, _ => return .leave (← recordOf fields)
  | .block, _, .blockEnd | .flow, _, .flowRecordEnd => return .close (← recordOf fields)
  | _, .free, .key => return .stay (.record style fields .key)
  | .flow, .filled, .comma => return .stay (.record .flow fields .free)
  | .flow, .free, _ => return .begin (.record .flow fields .free)
  | _, _, _ => throw "missing key"

/-- What a token does to a collection. -/
def step : Frame → Token → Except String Step
  | .list style items awaits, t => stepList style items awaits t
  | .record style fields slot, t => stepRecord style fields slot t

/-- The collection with the value `d` in it. -/
def add (d : Datum) : Frame → Except String Frame
  | .list style items _ => .ok (.list style (d :: items) false)
  | .record style fields .key => .ok (.record style fields (.keyed d))
  | .record style fields (.value k) => do
    return .record style (← addField fields k d) style.afterField
  | .record style fields _ => do return .record style (← addField fields d missing) .filled

/-- Whether a list at the indentation of the collection may be a value in it. -/
def mayHoldInner : Frame → Bool
  | .record .block _ _ => true
  | _ => false

end Frame

/-! ### Documents -/

/-- How many collections may be open at once. -/
def depthLimit : Nat := 2000

/-- How far a text has been read. -/
inductive Progress
  /-- In front of the document, or at its start if `marked`. -/
  | before (marked : Bool)
  /-- In the document, in which some collections are open, innermost first. -/
  | inside (frames : List Frame)
  /-- After the value of the document. -/
  | after (d : Datum)
  /-- After the mark at the end of the document. -/
  | ended (d : Datum)
  /-- At the end, what may follow being of no interest. -/
  | done (d : Datum)

namespace Progress

/-- The progress after the value `d` in the innermost collection. -/
def give (d : Datum) : List Frame → Except String Progress
  | [] => .ok (.after d)
  | f :: frames => do return .inside ((← f.add d) :: frames)

/-- The progress after the start of one more collection. -/
def enter (frames : List Frame) (f : Frame) : Except String Progress :=
  if depthLimit ≤ frames.length then .error "nesting too deep" else .ok (.inside (f :: frames))

/-- The progress after a token that begins a value. -/
def begin (frames : List Frame) (t : Token) : Except String Progress :=
  match t with
  | .scalar d => give d frames
  | .listStart => enter frames (.list .block [] false)
  | .recordStart => enter frames (.record .block [] .free)
  | .flowListStart => enter frames (.list .flow [] true)
  | .flowRecordStart => enter frames (.record .flow [] .free)
  | .dash =>
    if frames.head?.any Frame.mayHoldInner then enter frames (.list .inner [] true)
    else .error "misplaced dash"
  | _ => .error "missing value"

/-- The progress after a token inside of a document. -/
def feedFrames (t : Token) : List Frame → Except String Progress
  | [] => begin [] t
  | f :: frames => do
    match ← f.step t with
    | .stay f => return .inside (f :: frames)
    | .enter outer inner => enter (outer :: frames) inner
    | .close d => give d frames
    | .begin f => begin (f :: frames) t
    | .leave d =>
      match frames with
      | [] => throw "misplaced end"
      | f :: frames => feedFrames t ((← f.add d) :: frames)
termination_by frames => frames.length

/-- The progress after one more token. -/
def feed (p : Progress) (t : Token) : Except String Progress :=
  match p, t with
  | .before false, .documentEnd => .ok (.before false)
  | .before false, .documentStart => .ok (.before true)
  | .before true, .documentStart => .error "more than one document"
  | .before true, .documentEnd => .ok (.ended missing)
  | .before _, .textEnd => .ok (.done missing)
  | .before _, t => begin [] t
  | .inside frames, t => feedFrames t frames
  | .after _, .documentStart => .error "more than one document"
  | .after d, .documentEnd => .ok (.ended d)
  | .after d, _ => .ok (.done d)
  | .ended d, .documentEnd => .ok (.ended d)
  | .ended d, .textEnd | .ended d, .comma => .ok (.done d)
  | .ended _, _ => .error "more than one document"
  | .done d, _ => .ok (.done d)

/-- The value of a text of which the rest cannot be read. -/
def value? : Progress → Option Datum
  | .ended d | .done d => some d
  | _ => none

end Progress

end Yaml

end ContentGrammar
