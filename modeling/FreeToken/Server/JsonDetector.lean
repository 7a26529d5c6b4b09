/-
**The detector of tool calls written as JSON objects.**

* `JsonDetector.parseStreamingIncrement`: the streaming machine that `BaseFormatDetector` provides.

`partial_json_parser` is a package of its own: `PartialJson` is what the machine uses of it. An
exception that the machine catches leaves the attributes as they were when it was raised.
-/

import FreeToken.Server.FunctionCallParser
import FreeToken.Server.ReasoningParser

namespace FreeToken

open Markers

/-- How `partial_json_parser.loads` fails: `MalformedJSON`, an error that says "Extra data" or "pop
from empty list", or any other. -/
inductive PartialJsonError where
  | malformed
  | extraData
  | other
  deriving DecidableEq, Repr

/-- `partial_json_parser.loads`, with every kind of partial value allowed but, unless the flag is
set, partial strings. -/
abbrev PartialJson (F : Type) := List Char → Bool → Except PartialJsonError (Json F)

/-- The tokens of a wire format. -/
structure JsonFormat where
  botToken : List Char
  eotToken : List Char
  toolCallSeparator : List Char
  hasToolCall : List Char → Bool

structure JsonDetector (F : Type) where
  buffer : List Char := []
  prevToolCallArr : List (List (List Char × Json F)) := []
  currentToolId : Int := -1
  currentToolNameSent : Bool := false
  streamedArgsForTool : List (List Char) := []
  normalTextBuffer : List Char := []

variable {F : Type} [PyFloat F]

/-- `_get_tool_indices`: the index of the last tool of that name. -/
def toolIndices (tools : List (Tool F)) (name : List Char) : Option Nat :=
  ((tools.zipIdx.filter fun tool => tool.1.name = name ∧ name ≠ []).getLast?).map Prod.snd

variable (forwardUnknownTools : Bool)

/-- `_should_forward_unknown_tool`, of a name that is a string. -/
def shouldForwardUnknownTool (name : List Char) : Bool := forwardUnknownTools || name.contains ':'

/-- The arguments of a call: its `parameters` if they are truthy, its `arguments` or nothing. -/
def callArguments (members : List (List Char × Json F)) : Json F :=
  match (Json.get? members "parameters".toList).filter Json.truthy with
  | some parameters => parameters
  | none => (Json.get? members "arguments".toList).getD (.obj [])

/-- One call of `parse_base_json`; `none` where it raises, and nothing for an unknown tool that is
not forwarded. -/
def parseBaseCall (tools : List (Tool F)) : Json F → Option (List ToolCallItem)
  | .obj members =>
      match Json.get? members "name".toList with
      | none | some .null =>
          some (if forwardUnknownTools then
            [{ toolIndex := -1
               parameters := Json.dumps (callArguments members) }] else [])
      | some (.str name) =>
          let found := toolIndices tools name
          some (if found.isNone ∧ !shouldForwardUnknownTool forwardUnknownTools name then []
            else
              [{ toolIndex := found.elim (-1) fun index => index
                 name := some name
                 parameters := Json.dumps (callArguments members) }])
      | some name =>
          -- Neither a list nor an object is a key, and no other value is a name.
          match name with
          | .arr _ | .obj _ => if name.truthy || forwardUnknownTools then none else some []
          | _ => if forwardUnknownTools then none else some []
  | _ => none

def parseBaseJson (action : Json F) (tools : List (Tool F)) : Option (List ToolCallItem) :=
  let action := match action with
    | .arr items => items
    | action => [action]
  (action.mapM (parseBaseCall forwardUnknownTools tools)).map List.flatten

/-- `_ends_with_partial_token`: the shortest suffix of the buffer that begins the token. -/
def endsWithPartialToken (buffer token : List Char) : Nat :=
  ((List.range' 1 (min buffer.length (token.length - 1))).find? fun i =>
    (buffer.drop (buffer.length - i)).isPrefixOf token).getD 0

def findCommonPrefix : List Char → List Char → List Char
  | c :: first, d :: second => if c = d then c :: findCommonPrefix first second else []
  | _, _ => []

/-- `_is_complete_json`; `none` where it raises. -/
def isCompleteJson (F : Type) [PyFloat F] (text : List Char) : Option Bool :=
  match Json.loads (F := F) text with
  | .ok _ => some true
  | .error .decode => some false
  | .error .value => none

/-- `_partial_json_loads`: the value and how much of the text it takes. -/
def partialJsonLoads (partialLoads : PartialJson F) (text : List Char) (allowStr : Bool) :
    Except PartialJsonError (Json F × Nat) :=
  match partialLoads text allowStr with
  | .ok value => .ok (value, text.length)
  | .error .extraData =>
      match Json.rawDecode (Json.skipSpace text) with
      | .ok (value, rest) => .ok (value, text.length - rest.length)
      | .error _ => .error .other
  | .error error => .error error

def padTo {α : Type} (blank : α) (xs : List α) (index : Nat) : List α :=
  xs ++ List.replicate (index + 1 - xs.length) blank

namespace JsonDetector

def recordCall (self : JsonDetector F) (members : List (List Char × Json F)) : JsonDetector F :=
  if 0 ≤ self.currentToolId then
    let index := self.currentToolId.toNat
    { self with prevToolCallArr := (padTo [] self.prevToolCallArr index).set index members }
  else self

/-- Case 1: the name has not been sent. Whether the tool is known was checked before. -/
def sendName (self : JsonDetector F) (members : List (List Char × Json F)) :
    StreamingParseResult × JsonDetector F :=
  match (Json.get? members "name".toList).filter Json.truthy with
  | none => ({}, self.recordCall members)
  | some functionName =>
      let self := { self with
        currentToolId := if self.currentToolId = -1 then 0 else self.currentToolId
        streamedArgsForTool :=
          if self.currentToolId = -1 then self.streamedArgsForTool ++ [[]]
          else padTo [] self.streamedArgsForTool self.currentToolId.toNat }
      match functionName with
      | .str name =>
          (⟨[], [{ toolIndex := self.currentToolId
                   name := some name
                   parameters := [] }]⟩,
            { self.recordCall members with currentToolNameSent := true })
      | _ => ({}, self)

/-- What follows a complete call in the buffer, without the closing token of its block. -/
def afterCall (eotToken rest : List Char) : List Char :=
  if eotToken ≠ [] ∧ eotToken.isPrefixOf (lstrip rest) then (lstrip rest).drop eotToken.length
  else rest

/-- Case 2: the arguments are sent as far as they are known. -/
def sendArguments (format : JsonFormat) (self : JsonDetector F)
    (members : List (List Char × Json F)) (isCurrentComplete : Bool) (rest : List Char) :
    StreamingParseResult × JsonDetector F :=
  let index := self.currentToolId.toNat
  match Json.get? members "arguments".toList with
  | none | some .null => ({}, self.recordCall members)
  | some curArguments =>
      match self.streamedArgsForTool[index]? with
      | none => ({}, self)
      | some streamed =>
          let curArgsJson := Json.dumps curArguments
          if isCurrentComplete then
            let completed := { self with
              buffer := afterCall format.eotToken rest
              prevToolCallArr := self.prevToolCallArr.set index []
              currentToolNameSent := false
              streamedArgsForTool := self.streamedArgsForTool.set index []
              currentToolId := self.currentToolId + 1 }
            (⟨[], [{ toolIndex := self.currentToolId
                     parameters := curArgsJson.drop streamed.length }]⟩,
              completed.recordCall members)
          else
            let prevArguments := ((self.prevToolCallArr[index]?).bind fun entry =>
              Json.get? entry "arguments".toList).filter Json.truthy
            match prevArguments.map Json.dumps with
            | none => ({}, self.recordCall members)
            | some prevArgsJson =>
                if curArgsJson = prevArgsJson then ({}, self.recordCall members)
                else
                  let argumentDiff :=
                    (findCommonPrefix prevArgsJson curArgsJson).drop streamed.length
                  (⟨[], [{ toolIndex := self.currentToolId
                           parameters := argumentDiff }]⟩,
                    { self with
                      streamedArgsForTool :=
                        self.streamedArgsForTool.set index (streamed ++ argumentDiff)
                      : JsonDetector F }.recordCall members)

def release (format : JsonFormat) (self : JsonDetector F) : StreamingParseResult × JsonDetector F :=
  (⟨removeAll format.eotToken self.buffer, []⟩, { self with buffer := [] })

/-- A value has been parsed, complete or partial: only an object is a call. -/
def takeValue (format : JsonFormat) (forwardUnknownTools : Bool) (self : JsonDetector F)
    (tools : List (Tool F)) (value : Json F) (isCurrentComplete : Bool) (rest : List Char) :
    StreamingParseResult × JsonDetector F :=
  match value with
  | .obj members =>
      let name := Json.get? members "name".toList
      let unhashable := name.any fun name => match name with
        | .arr _ | .obj _ => true
        | _ => false
      let unknown := name.any fun name => match name with
        | .str name =>
            (toolIndices tools name).isNone && !shouldForwardUnknownTool forwardUnknownTools name
        | _ => !forwardUnknownTools
      if unhashable then ({}, self)
      else if unknown then
        ({}, { self with
          buffer := []
          currentToolId := -1
          currentToolNameSent := false
          streamedArgsForTool := self.streamedArgsForTool.dropLast })
      else
        match Json.get? members "parameters".toList, Json.get? members "arguments".toList with
        | some _, some _ => ({}, self)
        | parameters, _ =>
            let members := parameters.elim members fun parameters =>
              Json.setItem "arguments".toList parameters members
            if members = [] then ({}, self)
            else if self.currentToolNameSent then
              self.sendArguments format members isCurrentComplete rest
            else self.sendName members
  | _ => ({}, self)

def parseStreamingIncrement (format : JsonFormat) (partialLoads : PartialJson F)
    (forwardUnknownTools : Bool) (self : JsonDetector F) (newText : List Char)
    (tools : List (Tool F)) : StreamingParseResult × JsonDetector F :=
  let currentText := self.buffer ++ newText
  let self := { self with buffer := currentText }
  let separated :=
    decide (0 < self.currentToolId) && format.toolCallSeparator.isPrefixOf currentText
  let isPartial := endsWithPartialToken currentText format.botToken ≠ 0
  if !(format.hasToolCall currentText || separated) then
    if isPartial then ({}, self) else self.release format
  else
    match cut format.botToken currentText with
    | some (c :: pre, after) =>
        -- Text precedes the tag: it is released before the call is parsed.
        (⟨removeAll format.eotToken (c :: pre), []⟩,
          { self with buffer := format.botToken ++ after })
    | tag =>
        let rest :=
          match tag with
          | some (_, after) => after
          | none => if separated then currentText.drop format.toolCallSeparator.length
              else currentText
        if rest = [] then ({}, self)
        else
          match partialJsonLoads partialLoads rest self.currentToolNameSent with
          | .error .malformed =>
              if tag.isNone ∧ !isPartial ∧ ((lstrip rest).head?).any (· ∉ ['\x7b', '[']) then
                self.release format
              else ({}, self)
          | .error _ => ({}, self)
          | .ok (value, endIdx) =>
              match isCompleteJson F (rest.take endIdx) with
              | none => ({}, self)
              | some isCurrentComplete =>
                  self.takeValue format forwardUnknownTools tools value isCurrentComplete
                    (rest.drop endIdx)

def finishStreaming (format : JsonFormat) (self : JsonDetector F) : List Char × JsonDetector F :=
  let residual := removeAll format.eotToken self.buffer
  let dropped := format.hasToolCall self.buffer || self.currentToolNameSent ||
    (!self.prevToolCallArr.isEmpty &&
      (strip residual == [] || strip residual == strip format.toolCallSeparator))
  (if dropped then [] else residual, { self with buffer := [] })

end JsonDetector

/-! ### `Qwen25Detector` -/

def qwen25Format : JsonFormat where
  botToken := "<tool_call>".toList
  eotToken := "</tool_call>".toList
  toolCallSeparator := "\n".toList
  hasToolCall text := decide ("<tool_call>".toList <:+: text)

/-- `re.findall` of the blocks between an opening and a closing token; the fuel bounds their
number. -/
def findBlocks (botToken eotToken : List Char) : Nat → List Char → List (List Char)
  | 0, _ => []
  | fuel + 1, text =>
      match (cut botToken text).bind fun (_, body) => cut eotToken body with
      | none => []
      | some (block, rest) => block :: findBlocks botToken eotToken fuel rest

namespace Qwen25

/-- The calls of one block: none where the block is no JSON, `none` where it raises. -/
def parseBlock (tools : List (Tool F)) (block : List Char) : Option (List ToolCallItem) :=
  match Json.loads (strip block) with
  | .ok call => parseBaseJson forwardUnknownTools call tools
  | .error .decode => some []
  | .error .value => none

def detectAndParse (text : List Char) (tools : List (Tool F)) : Option StreamingParseResult :=
  match cut qwen25Format.botToken text with
  | none => some ⟨text, []⟩
  | some (pre, _) =>
      let blocks := findBlocks qwen25Format.botToken qwen25Format.eotToken text.length text
      (blocks.mapM (parseBlock forwardUnknownTools tools)).map fun calls =>
        ⟨strip pre, calls.flatten⟩

/-- The text that the machine released, but for a closing token or what may become one. -/
def releaseText (self : JsonDetector F) (normalText : List Char) : List Char × List Char :=
  let held := self.normalTextBuffer ++ normalText
  if qwen25Format.eotToken <:+: held then (removeAll qwen25Format.eotToken held, [])
  else
    let keep := held.length - endsWithPartialToken held qwen25Format.eotToken
    (held.take keep, held.drop keep)

def parseStreamingIncrement (partialLoads : PartialJson F) (forwardUnknownTools : Bool)
    (self : JsonDetector F) (newText : List Char) (tools : List (Tool F)) :
    StreamingParseResult × JsonDetector F :=
  let (res, self) :=
    self.parseStreamingIncrement qwen25Format partialLoads forwardUnknownTools newText tools
  if res.normalText = [] then (res, self)
  else
    let (normalText, held) := releaseText self res.normalText
    ({ res with normalText := normalText }, { self with normalTextBuffer := held })

def finishStreaming (self : JsonDetector F) : List Char × JsonDetector F :=
  let (residual, finished) := self.finishStreaming qwen25Format
  (self.normalTextBuffer ++ residual, { finished with normalTextBuffer := [] })

end Qwen25

/-- The format of Qwen 2.5 and Qwen 3. -/
def qwen25Detector (partialLoads : PartialJson F) (forwardUnknownTools : Bool) :
    BaseFormatDetector F (JsonDetector F) where
  eotToken := qwen25Format.eotToken
  buffer := JsonDetector.buffer
  clearBuffer self := { self with buffer := [] }
  prevToolCallArr := JsonDetector.prevToolCallArr
  hasToolCall := qwen25Format.hasToolCall
  detectAndParse _ := Qwen25.detectAndParse forwardUnknownTools
  parseStreamingIncrement self newText tools :=
    some (Qwen25.parseStreamingIncrement partialLoads forwardUnknownTools self newText tools)
  finishStreaming := Qwen25.finishStreaming

end FreeToken
