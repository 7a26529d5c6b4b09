/-
**The parser of tool calls in a completion.**
-/

import FreeToken.Lib.Markers
import FreeToken.Server.Json

namespace FreeToken

open Markers

/-- A function that the model may call, with the JSON schema of its parameters. -/
structure Tool (F : Type) where
  name : List Char
  parameters : Option (List (List Char × Json F)) := none

/-- The parsers work on decoded text. What the adapters send is a text over any code points `α`. -/
structure ToolCallItem (α : Type := Char) where
  toolIndex : Int
  name : Option (List α) := none
  parameters : List α
  deriving DecidableEq, Repr

structure StreamingParseResult where
  normalText : List Char := []
  calls : List ToolCallItem := []
  deriving DecidableEq, Repr

/-- The interface of the detectors; `σ` is the type of their attributes. -/
structure BaseFormatDetector (F σ : Type) where
  eotToken : List Char
  supportsStreaming : Bool := true
  argsFragmentsPrefixStable : Bool := true
  blockCloseTokens : List (List Char) := if eotToken = [] then [] else [eotToken]
  buffer : σ → List Char
  clearBuffer : σ → σ
  prevToolCallArr : σ → List (List (List Char × Json F))
  hasToolCall : List Char → Bool
  detectAndParse : σ → List Char → List (Tool F) → Option StreamingParseResult
  parseStreamingIncrement : σ → List Char → List (Tool F) → Option (StreamingParseResult × σ)
  finalizeStreaming : σ → List ToolCallItem × σ := fun self => ([], self)
  finishStreaming : σ → List Char × σ

/-- A segment of the stream: plain text, or the fragments of calls. -/
inductive Segment where
  | text (text : List Char)
  | calls (items : List ToolCallItem)
  deriving DecidableEq, Repr

def StreamingParseResult.segments (res : StreamingParseResult) : List Segment :=
  (if res.normalText = [] then [] else [.text res.normalText]) ++
    if res.calls = [] then [] else [.calls res.calls]

/-- The detector with its attributes and the tools of the request. Its stream methods drain the
detector (`parseStreamEvents`), close a call that was cut off (`finalizeStream`), recover one inside
an open block (`recoverTruncatedCall`) and release what is left (`finishStream`). -/
structure FunctionCallParser (F σ : Type) where
  detector : BaseFormatDetector F σ
  self : σ
  tools : List (Tool F)

namespace FunctionCallParser

variable {F σ : Type}

/-- What follows the last `token` in `text`. -/
def tailAfter (token text : List Char) : Option (List Char) :=
  (cut token.reverse text.reverse).map fun (after, _) => after.reverse

/-- What follows the last of the `tokens` in `text`. -/
def lastTail (tokens : List (List Char)) (text : List Char) : Option (List Char) :=
  (tokens.filterMap (tailAfter · text)).foldl
    (fun best tail => some (best.elim tail fun best =>
      if tail.length < best.length then tail else best)) none

/-- One-time parsing of the full text. -/
def parseNonStream (parser : FunctionCallParser F σ) (fullText : List Char) :
    Option StreamingParseResult :=
  if parser.tools.isEmpty then some ⟨fullText, []⟩
  else
    (parser.detector.detectAndParse parser.self fullText parser.tools).map fun parsed =>
      if parsed.calls = [] then ⟨fullText, []⟩
      else
        match lastTail parser.detector.blockCloseTokens fullText with
        | none => parsed
        | some tail =>
            if strip tail ≠ [] ∧ ¬strip tail <:+: parsed.normalText ∧
                parser.detector.hasToolCall tail = false then
              { parsed with normalText := parsed.normalText ++ tail }
            else parsed

def drain (detector : BaseFormatDetector F σ) (tools : List (Tool F)) :
    Nat → σ → List Char → Option (List Segment × σ)
  | 0, self, _ => some ([], self)
  | rounds + 1, self, text =>
      match detector.parseStreamingIncrement self text tools with
      | none => none
      | some (res, self) =>
          if text = [] ∧ res.segments = [] then some ([], self)
          else (drain detector tools rounds self []).map fun (segs, self) =>
            (res.segments ++ segs, self)

def drainRounds : Nat := 16

def parseStreamEvents (parser : FunctionCallParser F σ) (chunkText : List Char) :
    Option (List Segment × FunctionCallParser F σ) :=
  if parser.tools.isEmpty then
    some (if chunkText = [] then [] else [.text chunkText], parser)
  else
    (drain parser.detector parser.tools drainRounds parser.self chunkText).map
      fun (segs, self) => (segs, { parser with self := self })

/-- A call cut off while its block was open is parsed with the closing token appended; a failure to
parse is no failure here. -/
def recoverTruncatedCall (parser : FunctionCallParser F σ) :
    List ToolCallItem × FunctionCallParser F σ :=
  let buf := parser.detector.buffer parser.self
  if buf = [] ∨ parser.detector.eotToken = [] ∨ parser.detector.hasToolCall buf = false then
    ([], parser)
  else
    match parser.detector.detectAndParse parser.self (buf ++ parser.detector.eotToken)
        parser.tools with
    | none => ([], parser)
    | some parsed =>
        (parsed.calls, if parsed.calls = [] then parser
          else { parser with self := parser.detector.clearBuffer parser.self })

def finishStream (parser : FunctionCallParser F σ) : List Char :=
  (parser.detector.finishStreaming parser.self).1

/-- The arguments of a call whose stream was cut short, from what the detector has parsed. -/
def unstreamedArguments [PyFloat F] (parser : FunctionCallParser F σ) (toolOrdinal : Int) :
    Option (List Char) :=
  let arr := parser.detector.prevToolCallArr parser.self
  if 0 ≤ toolOrdinal ∧ toolOrdinal < arr.length then
    match (arr[toolOrdinal.toNat]?).bind fun entry => Json.get? entry "arguments".toList with
    | none | some .null => none
    | some args => some (Json.dumps args)
  else none

def finalizeStream (parser : FunctionCallParser F σ) : List ToolCallItem × FunctionCallParser F σ :=
  let (items, self) := parser.detector.finalizeStreaming parser.self
  (items, { parser with self := self })

end FunctionCallParser

end FreeToken
