/-
**Streams of blocks.**

A wire stream that opens and closes blocks, as its client sees it.
-/

import FreeToken.Server.StreamTranscript

namespace FreeToken

open List

inductive BlockKind where
  | thinking | text | tool
  deriving DecidableEq, Repr

inductive ClientOp where
  | start
  | openBlock (index : Nat) (kind : BlockKind) (name : Str)
  | delta (index : Nat) (kind : BlockKind) (text : Str)
  /-- Something else about the open block. -/
  | note (index : Nat)
  | closeBlock (index : Nat)
  | idle
  | finish
  deriving DecidableEq, Repr

/-! ### The client -/

/-- A client. It refuses a block that is opened inside of another one or out of order, a delta for a
block that is not open, and anything behind the terminal event. -/
structure Client where
  started : Bool := false
  blocks : Nat := 0
  current : Option BlockKind := none
  recovered : Recovered := { }
  ended : Bool := false
  deriving DecidableEq, Repr

namespace Client

def extend (recovered : Recovered) (text : Str) : BlockKind → Recovered
  | .thinking => { recovered with reasoning := recovered.reasoning ++ text }
  | .text => { recovered with content := recovered.content ++ text }
  | .tool => recovered.addArguments text

/-- A frame between the first one and the terminal one. -/
def act (client : Client) : ClientOp → Option Client
  | .start => none
  | .openBlock index kind name =>
      if client.current = none ∧ index = client.blocks then
        some { client with
          blocks := client.blocks + 1
          current := some kind
          recovered := if kind = .tool then client.recovered.openCall name else client.recovered }
      else none
  | .delta index kind text =>
      if client.current = some kind ∧ index + 1 = client.blocks then
        some { client with recovered := extend client.recovered text kind }
      else none
  | .note index =>
      if client.current.isSome ∧ index + 1 = client.blocks then some client else none
  | .closeBlock index =>
      if client.current.isSome ∧ index + 1 = client.blocks then
        some { client with current := none }
      else none
  | .idle => some client
  | .finish => if client.current = none then some { client with ended := true } else none

def step (client : Client) (op : ClientOp) : Option Client :=
  if client.ended then none
  else if client.started then client.act op
  else if op = .start then some { client with started := true } else none

def run (client : Client) (ops : List ClientOp) : Option Client := ops.foldlM step client

def read (ops : List ClientOp) : Option Client := run { } ops

def Satisfied (ops : List ClientOp) (script : StreamTranscript) : Prop :=
  ∃ client, read ops = some client ∧ client.ended = true ∧ client.current = none ∧
    client.recovered.Of script

theorem run_append {client middle later : Client} {ops more : List ClientOp}
    (first : client.run ops = some middle) (second : middle.run more = some later) :
    client.run (ops ++ more) = some later := by
  unfold run at first second ⊢
  rw [foldlM_append, first]
  exact second

theorem run_act {client later : Client} (started : client.started = true)
    (running : client.ended = false) {op : ClientOp} (acted : client.act op = some later) :
    client.run [op] = some later := by
  unfold run
  rw [foldlM_cons]
  unfold step
  rw [running, started, if_neg Bool.false_ne_true, if_pos rfl, acted]
  rfl

theorem run_ended {client : Client} (ended : client.ended = true) (op : ClientOp)
    (ops : List ClientOp) : client.run (op :: ops) = none := by
  unfold run
  rw [foldlM_cons]
  unfold step
  rw [if_pos ended]
  rfl

end Client

/-! ### The sender -/

structure Dialect where
  openingNotes : BlockKind → Nat
  closingNotes : BlockKind → Nat
  /-- The frames without a block behind the first one, and before the last one of a run that
  succeeds. -/
  opening : Nat
  parting : Nat
  sendsUnstable : Bool

/-- The sender. A `Dialect` says what stands around the blocks, and whether fragments that are not
stable are sent. -/
structure BlockStream where
  index : Nat := 0
  current : Option BlockKind := none
  sent : Str := []
  ordinal : Option Int := none
  sends : Bool := true
  deriving DecidableEq, Repr

variable {items : List StreamItem} {call : StartedCall}

namespace BlockStream

variable (dialect : Dialect) (self : BlockStream)

def close : List ClientOp × BlockStream :=
  match self.current with
  | none => ([], self)
  | some kind =>
      (List.replicate (dialect.closingNotes kind) (.note self.index) ++ [.closeBlock self.index],
        { index := self.index + 1 })

def openBlock (kind : BlockKind) (name : Str) : List ClientOp × BlockStream :=
  let (ops, self) := self.close dialect
  (ops ++ .openBlock self.index kind name ::
      List.replicate (dialect.openingNotes kind) (.note self.index),
    { self with current := some kind })

def piece (kind : BlockKind) (text : Str) : List ClientOp × BlockStream :=
  if text = [] then ([], self)
  else if self.current = some kind then ([.delta self.index kind text], self)
  else
    let (ops, self) := self.openBlock dialect kind []
    (ops ++ [.delta self.index kind text], self)

def openTool (name : Option (Str)) (ordinal : Int) (stable : Bool) : List ClientOp × BlockStream :=
  let (ops, self) := self.openBlock dialect .tool (name.getD [])
  (ops, { self with
    sent := []
    ordinal := some ordinal
    sends := stable || dialect.sendsUnstable })

def addArguments (fragment : Str) : List ClientOp × BlockStream :=
  ([.delta self.index .tool fragment], { self with sent := self.sent ++ fragment })

def takeFragment (fragment : Str) : List ClientOp × BlockStream :=
  if self.current = some .tool ∧ self.sends then self.addArguments fragment else ([], self)

def topUp (parameters : Str) : List ClientOp × BlockStream :=
  if self.sent.isPrefixOf parameters ∧ parameters.drop self.sent.length ≠ [] then
    self.addArguments (parameters.drop self.sent.length)
  else ([], self)

def takeCall (item : ToolCallItem CodePoint) : List ClientOp × BlockStream :=
  if self.current = some .tool ∧ self.ordinal = some item.toolIndex then
    let (rest, self) := self.topUp item.parameters
    let (ops, self) := self.close dialect
    (rest ++ ops, self)
  else
    let (ops, self) := self.openTool dialect item.name item.toolIndex true
    let (arguments, self) := self.addArguments item.parameters
    let (closing, self) := self.close dialect
    (ops ++ arguments ++ closing, self)

def takeCalls (self : BlockStream) : List (ToolCallItem CodePoint) → List ClientOp × BlockStream
  | [] => ([], self)
  | item :: items =>
      let (ops, self) := self.takeCall dialect item
      let (more, self) := takeCalls self items
      (ops ++ more, self)

def takeEvent : GenEvent CodePoint → List ClientOp × BlockStream
  | .reasoningDelta text => self.piece dialect .thinking text
  | .contentDelta text => self.piece dialect .text text
  | .toolCallStart toolIndex name stable => self.openTool dialect name toolIndex stable
  | .toolCallArgsDelta _ fragment => self.takeFragment fragment
  | .toolCallsDelta calls => self.takeCalls dialect calls
  | .genDone _ =>
      let (ops, self) := self.close dialect
      (ops ++ List.replicate dialect.parting .idle ++ [.finish], self)

def take : StreamItem → List ClientOp × BlockStream
  | .keepalive => ([.idle], self)
  | .event ev => self.takeEvent dialect ev

def takeAll (self : BlockStream) : List StreamItem → List ClientOp × BlockStream
  | [] => ([], self)
  | item :: items =>
      let (ops, self) := self.take dialect item
      let (more, self) := takeAll self items
      (ops ++ more, self)

def finish : StreamEnd → List ClientOp
  | .exhausted => []
  | _ => (self.close dialect).1 ++ [.finish]

def send (items : List StreamItem) (ending : StreamEnd) : List ClientOp :=
  let (ops, self) := takeAll dialect { } items
  .start :: List.replicate dialect.opening .idle ++ ops ++ self.finish dialect ending

/-! ### What the client makes of it -/

structure Fits (sender : BlockStream) (client : Client) : Prop where
  started : client.started = true
  running : client.ended = false
  current : client.current = sender.current
  blocks : client.blocks = sender.index + if sender.current.isSome then 1 else 0

variable {dialect self} {client : Client}

theorem Fits.congr {other : BlockStream} (fits : self.Fits client)
    (current : other.current = self.current) (index : other.index = self.index) :
    other.Fits client :=
  ⟨fits.started, fits.running, current ▸ fits.current, current ▸ index ▸ fits.blocks⟩

theorem notes_run (fits : self.Fits client) (isOpen : self.current.isSome) (n : Nat) :
    client.run (List.replicate n (.note self.index)) = some client := by
  have blocks := fits.blocks
  rw [if_pos isOpen] at blocks
  have noted : client.act (.note self.index) = some client :=
    if_pos ⟨fits.current ▸ isOpen, blocks.symm⟩
  induction n with
  | zero => rfl
  | succ n ih => exact Client.run_append (Client.run_act fits.started fits.running noted) ih

theorem idles_run (started : client.started = true) (running : client.ended = false) (n : Nat) :
    client.run (List.replicate n .idle) = some client := by
  induction n with
  | zero => rfl
  | succ n ih => exact Client.run_append (Client.run_act started running rfl) ih

variable (dialect) in
theorem close_run (fits : self.Fits client) :
    ∃ later, client.run (self.close dialect).1 = some later ∧
      (self.close dialect).2.Fits later ∧ later.recovered = client.recovered := by
  unfold close
  cases isCurrent : self.current with
  | none => exact ⟨client, rfl, fits.congr rfl rfl, rfl⟩
  | some kind =>
    have isOpen : self.current.isSome := Option.isSome_iff_exists.mpr ⟨kind, isCurrent⟩
    have blocks := fits.blocks
    rw [if_pos isOpen] at blocks
    have closing : client.act (.closeBlock self.index) = some { client with current := none } :=
      if_pos ⟨fits.current ▸ isOpen, blocks.symm⟩
    exact ⟨_, Client.run_append (notes_run fits isOpen _)
      (Client.run_act fits.started fits.running closing),
      ⟨fits.started, fits.running, rfl, blocks⟩, rfl⟩

@[simp] theorem close_current : (self.close dialect).2.current = none := by
  unfold close
  split
  · assumption
  · rfl

variable (dialect) in
theorem openBlock_run (fits : self.Fits client) (kind : BlockKind) (name : Str) :
    ∃ later, client.run (self.openBlock dialect kind name).1 = some later ∧
      (self.openBlock dialect kind name).2.Fits later ∧
      later.recovered =
        if kind = .tool then client.recovered.openCall name else client.recovered := by
  obtain ⟨closed, closing, closedFits, same⟩ := close_run dialect fits
  have isNone : closed.current = none := closedFits.current.trans close_current
  have blocks : closed.blocks = (self.close dialect).2.index := by
    have blocks := closedFits.blocks
    rw [close_current] at blocks
    exact blocks
  let opened : Client := { closed with
    blocks := closed.blocks + 1
    current := some kind
    recovered := if kind = .tool then closed.recovered.openCall name else closed.recovered }
  have openedFits : (self.openBlock dialect kind name).2.Fits opened :=
    ⟨closedFits.started, closedFits.running, rfl, congrArg (· + 1) blocks⟩
  have opening : closed.run [.openBlock (self.close dialect).2.index kind name] = some opened :=
    Client.run_act closedFits.started closedFits.running (if_pos ⟨isNone, blocks.symm⟩)
  refine ⟨opened, Client.run_append closing (Client.run_append opening
    (notes_run openedFits rfl _)), openedFits, ?_⟩
  rw [← same]

theorem delta_run (fits : self.Fits client) {kind : BlockKind} (isOpen : self.current = some kind)
    (text : Str) :
    ∃ later, client.run [.delta self.index kind text] = some later ∧ self.Fits later ∧
      later.recovered = Client.extend client.recovered text kind := by
  have blocks := fits.blocks
  rw [isOpen, if_pos Option.isSome_some] at blocks
  have acted : client.act (.delta self.index kind text) =
      some { client with recovered := Client.extend client.recovered text kind } :=
    if_pos ⟨fits.current.trans isOpen, blocks.symm⟩
  exact ⟨_, Client.run_act fits.started fits.running acted,
    ⟨fits.started, fits.running, fits.current, fits.blocks⟩, rfl⟩

theorem extend_nil (recovered : Recovered) {kind : BlockKind} (noTool : kind ≠ .tool) :
    Client.extend recovered [] kind = recovered := by
  cases kind with
  | tool => exact absurd rfl noTool
  | _ =>
    unfold Client.extend
    dsimp only
    rw [append_nil]

variable (dialect) in
theorem piece_run (fits : self.Fits client) {kind : BlockKind} (noTool : kind ≠ .tool)
    (text : Str) :
    ∃ later, client.run (self.piece dialect kind text).1 = some later ∧
      (self.piece dialect kind text).2.Fits later ∧
      later.recovered = Client.extend client.recovered text kind ∧
      (text = [] → (self.piece dialect kind text).2 = self) ∧
      (text ≠ [] → (self.piece dialect kind text).2.current = some kind) := by
  unfold piece
  by_cases none : text = []
  · rw [if_pos none, none, extend_nil _ noTool]
    exact ⟨client, rfl, fits, rfl, fun _ => rfl, fun some_ => absurd rfl some_⟩
  · rw [if_neg none]
    by_cases isOpen : self.current = some kind
    · rw [if_pos isOpen]
      obtain ⟨later, sent, laterFits, recovered⟩ := delta_run fits isOpen text
      exact ⟨later, sent, laterFits, recovered, fun none' => absurd none' none, fun _ => isOpen⟩
    · rw [if_neg isOpen]
      obtain ⟨opened, opening, openedFits, same⟩ := openBlock_run dialect fits kind []
      obtain ⟨later, sent, laterFits, recovered⟩ := delta_run openedFits rfl text
      refine ⟨later, Client.run_append opening sent, laterFits, ?_, fun none' => absurd none' none,
        fun _ => rfl⟩
      rw [recovered, same, if_neg noTool]

variable (dialect) in
theorem openTool_run (fits : self.Fits client) (name : Option (Str)) (ordinal : Int)
    (stable : Bool) :
    ∃ later, client.run (self.openTool dialect name ordinal stable).1 = some later ∧
      (self.openTool dialect name ordinal stable).2.Fits later ∧
      later.recovered = client.recovered.openCall (name.getD []) := by
  obtain ⟨opened, opening, openedFits, same⟩ := openBlock_run dialect fits .tool (name.getD [])
  exact ⟨opened, opening, openedFits.congr rfl rfl, same⟩

theorem addArguments_run (fits : self.Fits client) (isOpen : self.current = some .tool)
    (fragment : Str) :
    ∃ later, client.run (self.addArguments fragment).1 = some later ∧
      (self.addArguments fragment).2.Fits later ∧
      later.recovered = client.recovered.addArguments fragment := by
  obtain ⟨later, sent, laterFits, recovered⟩ := delta_run fits isOpen fragment
  exact ⟨later, sent, laterFits.congr rfl rfl, recovered⟩

def topped (sent parameters : Str) : Str :=
  if sent.isPrefixOf parameters then parameters else sent

theorem topUp_run (fits : self.Fits client) (isOpen : self.current = some .tool)
    {calls : List CallView} {name : Str}
    (isCalls : client.recovered.calls = calls ++ [⟨name, self.sent⟩]) (parameters : Str) :
    ∃ later, client.run (self.topUp parameters).1 = some later ∧
      (self.topUp parameters).2.Fits later ∧
      later.recovered.reasoning = client.recovered.reasoning ∧
      later.recovered.content = client.recovered.content ∧
      later.recovered.calls = calls ++ [⟨name, topped self.sent parameters⟩] := by
  unfold topUp topped
  by_cases isPrefix : self.sent.isPrefixOf parameters
  · obtain ⟨rest, whole⟩ := isPrefixOf_iff_prefix.mp isPrefix
    have isRest : parameters.drop self.sent.length = rest := by rw [← whole, drop_left]
    rw [if_pos isPrefix, isRest]
    by_cases none : rest = []
    · rw [if_neg (fun both => both.2 none)]
      rw [none, append_nil] at whole
      exact ⟨client, rfl, fits, rfl, rfl, whole ▸ isCalls⟩
    · rw [if_pos ⟨isPrefix, none⟩]
      obtain ⟨later, sent, laterFits, recovered⟩ := addArguments_run fits isOpen rest
      refine ⟨later, sent, laterFits, ?_, ?_, ?_⟩
      · rw [recovered]
        rfl
      · rw [recovered]
        rfl
      · rw [recovered, Recovered.addArguments_concat isCalls]
        rw [whole]
  · rw [if_neg (fun both => isPrefix both.1), if_neg isPrefix]
    exact ⟨client, rfl, fits, rfl, rfl, isCalls⟩

/-! ### What the sender has told -/

def sentOf (dialect : Dialect) (call : StartedCall) (text : Str) : Str :=
  if call.stable || dialect.sendsUnstable then text else []

def openView (dialect : Dialect) (call : StartedCall) : CallView :=
  ⟨call.name.getD [], sentOf dialect call (call.cut.getD call.fragments)⟩

def closedViews (dialect : Dialect) (call : ClosedCall) : List CallView :=
  match call.started.cut with
  | none => [⟨call.started.name.getD [],
      topped (sentOf dialect call.started call.started.fragments) call.parameters⟩]
  | some pre => [⟨call.started.name.getD [], sentOf dialect call.started pre⟩,
      ⟨call.started.name.getD [], call.parameters⟩]

structure Told (dialect : Dialect) (recovered : Recovered) (script : StreamTranscript) : Prop where
  reasoning : recovered.reasoning = script.reasoning
  content : recovered.content = script.content
  calls : recovered.calls = script.closed.flatMap (closedViews dialect) ++
    script.started.toList.map (openView dialect)

def Holds (dialect : Dialect) (sender : BlockStream) : Option StartedCall → Prop
  | none => sender.current ≠ some .tool
  | some call =>
      match call.cut with
      | none => sender.current = some .tool ∧ sender.sent = sentOf dialect call call.fragments ∧
          sender.ordinal = some call.ordinal ∧
          sender.sends = (call.stable || dialect.sendsUnstable)
      | some _ => sender.current ≠ some .tool

variable (dialect) in
theorem takeCall_standalone (fits : self.Fits client) (item : ToolCallItem CodePoint)
    (closed : ¬(self.current = some .tool ∧ self.ordinal = some item.toolIndex)) :
    ∃ later, client.run (self.takeCall dialect item).1 = some later ∧
      (self.takeCall dialect item).2.Fits later ∧
      (self.takeCall dialect item).2.current = none ∧
      later.recovered.reasoning = client.recovered.reasoning ∧
      later.recovered.content = client.recovered.content ∧
      later.recovered.calls = client.recovered.calls ++ [⟨item.name.getD [], item.parameters⟩] := by
  unfold takeCall
  rw [if_neg closed]
  obtain ⟨opened, opening, openedFits, isOpened⟩ :=
    openTool_run dialect fits item.name item.toolIndex true
  obtain ⟨filled, filling, filledFits, isFilled⟩ := addArguments_run openedFits rfl item.parameters
  obtain ⟨later, closing, laterFits, same⟩ := close_run dialect filledFits
  refine ⟨later, Client.run_append (Client.run_append opening filling) closing, laterFits,
    close_current, ?_, ?_, ?_⟩
  · rw [same, isFilled, isOpened]
    rfl
  · rw [same, isFilled, isOpened]
    rfl
  · rw [same, isFilled]
    have isCalls : opened.recovered.calls =
        client.recovered.calls ++ [⟨item.name.getD [], []⟩] := by
      rw [isOpened]
      rfl
    exact Recovered.addArguments_concat isCalls item.parameters

variable (dialect) in
theorem takeCalls_standalone (items : List (ToolCallItem CodePoint)) (fits : self.Fits client)
    (noTool : self.current ≠ some .tool) :
    ∃ later, client.run (self.takeCalls dialect items).1 = some later ∧
      (self.takeCalls dialect items).2.Fits later ∧
      (self.takeCalls dialect items).2.current ≠ some .tool ∧
      later.recovered.reasoning = client.recovered.reasoning ∧
      later.recovered.content = client.recovered.content ∧
      later.recovered.calls = client.recovered.calls ++
        (items.map ClosedCall.standalone).flatMap (closedViews dialect) := by
  induction items generalizing self client with
  | nil => exact ⟨client, rfl, fits, noTool, rfl, rfl, (append_nil _).symm⟩
  | cons item items ih =>
    obtain ⟨next, first, nextFits, isNone, reasoning, content, calls⟩ :=
      takeCall_standalone dialect fits item fun both => noTool both.1
    obtain ⟨later, rest, laterFits, laterNoTool, laterReasoning, laterContent, laterCalls⟩ :=
      ih nextFits (isNone ▸ (Option.some_ne_none _).symm)
    refine ⟨later, Client.run_append first rest, laterFits, laterNoTool,
      laterReasoning.trans reasoning, laterContent.trans content, ?_⟩
    have view : closedViews dialect (.standalone item) =
        [⟨item.name.getD [], item.parameters⟩] := by
      rfl
    rw [laterCalls, calls, append_assoc, map_cons, flatMap_cons, view]

theorem takeCall_closes (fits : self.Fits client) {script : StreamTranscript} (isStarted : script.started = some call)
    (told : Told dialect client.recovered script)
    (holds : Holds dialect self (some call)) {item : ToolCallItem CodePoint}
    (sameOrdinal : item.toolIndex = call.ordinal) (sameName : item.name = call.name) :
    ∃ later, client.run (self.takeCall dialect item).1 = some later ∧
      (self.takeCall dialect item).2.Fits later ∧
      (self.takeCall dialect item).2.current = none ∧
      Told dialect later.recovered { script with
        closed := script.closed ++ [⟨call, item.parameters⟩]
        started := none } := by
  have isCalls := told.calls
  rw [isStarted] at isCalls
  cases isCut : call.cut with
  | none =>
    unfold Holds at holds
    dsimp only at holds
    rw [isCut] at holds
    obtain ⟨isOpen, isSent, isOrdinal, -⟩ := holds
    have isView : openView dialect call = ⟨call.name.getD [], self.sent⟩ := by
      unfold openView
      rw [isCut, isSent]
      rfl
    rw [Option.toList_some, map_singleton, isView] at isCalls
    obtain ⟨filled, filling, filledFits, reasoning, content, calls⟩ :=
      topUp_run fits isOpen isCalls item.parameters
    obtain ⟨later, closing, laterFits, same⟩ := close_run dialect filledFits
    unfold takeCall
    rw [if_pos ⟨isOpen, isOrdinal.trans (congrArg some sameOrdinal.symm)⟩]
    refine ⟨later, Client.run_append filling closing, laterFits, close_current, ?_, ?_, ?_⟩
    · exact (congrArg Recovered.reasoning same).trans (reasoning.trans told.reasoning)
    · exact (congrArg Recovered.content same).trans (content.trans told.content)
    · rw [same, calls, flatMap_append, flatMap_singleton, Option.toList_none,
        map_nil, append_nil, isSent]
      unfold closedViews
      rw [isCut]
  | some pre =>
    unfold Holds at holds
    dsimp only at holds
    rw [isCut] at holds
    obtain ⟨later, sent, laterFits, isNone, reasoning, content, calls⟩ :=
      takeCall_standalone dialect fits item fun both => holds both.1
    refine ⟨later, sent, laterFits, isNone, reasoning.trans told.reasoning,
      content.trans told.content, ?_⟩
    have isOpenView : openView dialect call = ⟨call.name.getD [], sentOf dialect call pre⟩ := by
      unfold openView
      rw [isCut]
      rfl
    have isClosed : closedViews dialect ⟨call, item.parameters⟩ =
        [⟨call.name.getD [], sentOf dialect call pre⟩, ⟨call.name.getD [], item.parameters⟩] := by
      unfold closedViews
      rw [isCut]
    rw [calls, isCalls, sameName, append_assoc, flatMap_append, flatMap_singleton,
      Option.toList_none, map_nil, append_nil, Option.toList_some, map_singleton,
      isOpenView, isClosed]
    rfl

structure Tells (dialect : Dialect) (sender : BlockStream) (client : Client)
    (script : StreamTranscript) : Prop where
  fits : sender.Fits client
  told : Told dialect client.recovered script
  holds : Holds dialect sender script.started

theorem sentOf_nil (call : StartedCall) : sentOf dialect call [] = [] := by
  unfold sentOf
  split <;> rfl

theorem openView_interrupt (call : StartedCall) (text : Str) :
    openView dialect (call.interrupt text) = openView dialect call := by
  unfold StartedCall.interrupt
  by_cases quiet : text = [] ∨ call.cut.isSome
  · rw [if_pos quiet]
  · rw [if_neg quiet]
    rw [not_or, Bool.not_eq_true, Option.isSome_eq_false_iff, Option.isNone_iff_eq_none] at quiet
    unfold openView
    rw [quiet.2]
    rfl

variable {script next : StreamTranscript}

theorem reasoning_tells (tells : Tells dialect self client script) (text : Str) :
    ∃ later, client.run (self.piece dialect .thinking text).1 = some later ∧
      Tells dialect (self.piece dialect .thinking text).2 later { script with
        reasoning := script.reasoning ++ text
        started := script.started.map fun call => call.interrupt text } := by
  obtain ⟨later, sent, fits, recovered, silent, isOpen⟩ :=
    piece_run dialect tells.fits (show BlockKind.thinking ≠ .tool by decide) text
  refine ⟨later, sent, fits, ⟨?_, ?_, ?_⟩, ?_⟩
  · rw [recovered]
    exact congrArg (· ++ text) tells.told.reasoning
  · rw [recovered]
    exact tells.told.content
  · rw [recovered]
    refine tells.told.calls.trans ?_
    cases script.started with
    | none => rfl
    | some call => exact congrArg (_ ++ [·]) (openView_interrupt call text).symm
  · have holds := tells.holds
    by_cases none : text = []
    · have same : (script.started.map fun call => call.interrupt text) = script.started := by
        cases script.started with
        | none => rfl
        | some call => exact congrArg some (if_pos (.inl none))
      rw [silent none]
      rw [same]
      exact holds
    · have noTool : (self.piece dialect .thinking text).2.current ≠ some .tool := by
        rw [isOpen none]
        decide
      cases script.started with
      | none => exact noTool
      | some call =>
        have isCut : (call.interrupt text).cut.isSome := by
          unfold StartedCall.interrupt
          by_cases pre : text = [] ∨ call.cut.isSome
          · rw [if_pos pre]
            exact pre.resolve_left none
          · rw [if_neg pre]
            rfl
        obtain ⟨pre, isCut⟩ := Option.isSome_iff_exists.mp isCut
        dsimp only [Option.map_some, Holds]
        rw [isCut]
        exact noTool

theorem content_tells (tells : Tells dialect self client script)
    (isStarted : script.started = none) (text : Str) :
    ∃ later, client.run (self.piece dialect .text text).1 = some later ∧
      Tells dialect (self.piece dialect .text text).2 later
        { script with content := script.content ++ text } := by
  obtain ⟨later, sent, fits, recovered, silent, isOpen⟩ :=
    piece_run dialect tells.fits (show BlockKind.text ≠ .tool by decide) text
  have holds := tells.holds
  rw [isStarted] at holds
  refine ⟨later, sent, fits, ⟨?_, ?_, ?_⟩, ?_⟩
  · rw [recovered]
    exact tells.told.reasoning
  · rw [recovered]
    exact congrArg (· ++ text) tells.told.content
  · rw [recovered]
    exact tells.told.calls
  · rw [isStarted]
    by_cases none : text = []
    · rw [silent none]
      exact holds
    · intro isTool
      rw [isOpen none] at isTool
      cases isTool

theorem start_tells (tells : Tells dialect self client script)
    (isStarted : script.started = none) (ordinal : Nat) (name : Option (Str))
    (stable : Bool) :
    ∃ later, client.run (self.openTool dialect name ordinal stable).1 = some later ∧
      Tells dialect (self.openTool dialect name ordinal stable).2 later { script with
        started := some { ordinal := ordinal, name := name, stable := stable } } := by
  obtain ⟨later, sent, fits, recovered⟩ := openTool_run dialect tells.fits name ordinal stable
  refine ⟨later, sent, fits, ⟨?_, ?_, ?_⟩, rfl, ?_, rfl, rfl⟩
  · rw [recovered]
    exact tells.told.reasoning
  · rw [recovered]
    exact tells.told.content
  · have isCalls := tells.told.calls
    rw [isStarted, Option.toList_none, map_nil, append_nil] at isCalls
    rw [recovered]
    unfold Recovered.openCall openView
    dsimp only [Option.toList_some, map_singleton, Option.getD_none]
    rw [isCalls, sentOf_nil]
  · exact (sentOf_nil _).symm

theorem fragment_tells (tells : Tells dialect self client script)
    (isStarted : script.started = some call) (fragment : Str) :
    ∃ later, client.run (self.takeFragment fragment).1 = some later ∧
      Tells dialect (self.takeFragment fragment).2 later { script with
        started := some { call with fragments := call.fragments ++ fragment } } := by
  have isCalls := tells.told.calls
  have holds := tells.holds
  rw [isStarted, Option.toList_some, map_singleton] at isCalls
  rw [isStarted] at holds
  unfold Holds at holds
  dsimp only at holds
  unfold takeFragment
  rcases Option.eq_none_or_eq_some call.cut with isCut | ⟨pre, isCut⟩
  case inr =>
      rw [isCut] at holds
      have same : openView dialect { call with fragments := call.fragments ++ fragment } =
          openView dialect call := by
        unfold openView
        rw [isCut]
        rfl
      rw [if_neg fun both => holds both.1]
      refine ⟨client, rfl, tells.fits, ⟨tells.told.reasoning, tells.told.content, ?_⟩, ?_⟩
      · rw [isCalls, ← same]
        rfl
      · rw [isCut]
        exact holds
  case inl =>
      rw [isCut] at holds
      obtain ⟨isOpen, isSent, isOrdinal, sends⟩ := holds
      have pre : openView dialect call =
          ⟨call.name.getD [], sentOf dialect call call.fragments⟩ := by
        unfold openView
        rw [isCut]
        rfl
      have after : openView dialect { call with fragments := call.fragments ++ fragment } =
          ⟨call.name.getD [], sentOf dialect call (call.fragments ++ fragment)⟩ := by
        rw [isCut]
        rfl
      by_cases sent : (call.stable || dialect.sendsUnstable) = true
      · have all : ∀ text, sentOf dialect call text = text := fun text => if_pos sent
        rw [if_pos ⟨isOpen, sends.trans sent⟩]
        obtain ⟨later, run, fits, recovered⟩ := addArguments_run tells.fits isOpen fragment
        rw [pre, all] at isCalls
        refine ⟨later, run, fits, ⟨?_, ?_, ?_⟩, ?_⟩
        · rw [recovered]
          exact tells.told.reasoning
        · rw [recovered]
          exact tells.told.content
        · rw [recovered, Recovered.addArguments_concat isCalls]
          dsimp only [Option.toList_some, map_singleton]
          rw [after, all]
        · rw [isCut]
          refine ⟨isOpen, ?_, isOrdinal, sends⟩
          rw [all] at isSent
          exact (congrArg (· ++ fragment) isSent).trans (all _).symm
      · have nothing : ∀ text, sentOf dialect call text = [] := fun text => if_neg sent
        rw [if_neg fun both => sent (sends.symm.trans both.2)]
        refine ⟨client, rfl, tells.fits, ⟨tells.told.reasoning, tells.told.content, ?_⟩, ?_⟩
        · dsimp only [Option.toList_some, map_singleton]
          rw [isCalls, pre, after, nothing, nothing]
        · rw [isCut]
          refine ⟨isOpen, ?_, isOrdinal, sends⟩
          rw [isSent, nothing]
          exact (nothing _).symm

theorem standalones_tell (tells : Tells dialect self client script)
    (isNone : script.started = none) (calls : List (ToolCallItem CodePoint)) :
    ∃ later, client.run (self.takeCalls dialect calls).1 = some later ∧
      Tells dialect (self.takeCalls dialect calls).2 later { script with
        closed := script.closed ++ calls.map ClosedCall.standalone } := by
  have holds := tells.holds
  rw [isNone] at holds
  obtain ⟨later, sent, fits, noTool, reasoning, content, isCalls⟩ :=
    takeCalls_standalone dialect calls tells.fits holds
  refine ⟨later, sent, fits, ⟨reasoning.trans tells.told.reasoning,
    content.trans tells.told.content, ?_⟩, ?_⟩
  · rw [isCalls, tells.told.calls]
    rw [isNone, Option.toList_none, map_nil, append_nil, append_nil, flatMap_append]
  · rw [isNone]
    exact noTool

theorem close_tells (tells : Tells dialect self client script)
    (isStarted : script.started = some call) {item : ToolCallItem CodePoint}
    (sameOrdinal : item.toolIndex = call.ordinal) (sameName : item.name = call.name)
    (more : List (ToolCallItem CodePoint)) :
    ∃ later, client.run (self.takeCalls dialect (item :: more)).1 = some later ∧
      Tells dialect (self.takeCalls dialect (item :: more)).2 later { script with
        closed := script.closed ++ ⟨call, item.parameters⟩ :: more.map ClosedCall.standalone
        started := none } := by
  have holds := tells.holds
  rw [isStarted] at holds
  obtain ⟨middle, first, middleFits, isNone, told⟩ :=
    takeCall_closes tells.fits isStarted tells.told holds sameOrdinal sameName
  obtain ⟨later, rest, fits, noTool, reasoning, content, isCalls⟩ :=
    takeCalls_standalone dialect more middleFits (isNone ▸ (Option.some_ne_none _).symm)
  refine ⟨later, Client.run_append first rest, fits, ⟨reasoning.trans told.reasoning,
    content.trans told.content, ?_⟩, noTool⟩
  rw [isCalls, told.calls]
  rw [Option.toList_none, map_nil, append_nil, append_nil, ← flatMap_append, append_assoc]
  rfl

theorem takeEvent_tells (tells : Tells dialect self client script) {ev : GenEvent CodePoint}
    (takes : script.Takes ev next) (running : next.done = false) :
    ∃ later, client.run (self.takeEvent dialect ev).1 = some later ∧
      Tells dialect (self.takeEvent dialect ev).2 later next := by
  cases takes with
  | reasoning text => exact reasoning_tells tells text
  | content text isNone => exact content_tells tells isNone text
  | start ordinal name stable isNone => exact start_tells tells isNone ordinal name stable
  | fragment _ fragment isStarted => exact fragment_tells tells isStarted fragment
  | standalone calls isNone => exact standalones_tell tells isNone calls
  | close item more isStarted sameOrdinal sameName =>
    exact close_tells tells isStarted sameOrdinal sameName more
  | done => cases running

def Concluded (dialect : Dialect) (client : Client) (script : StreamTranscript) : Prop :=
  client.ended = true ∧ client.current = none ∧ Told dialect client.recovered script

theorem close_finish (tells : Tells dialect self client script) (n : Nat) :
    ∃ later, client.run ((self.close dialect).1 ++ List.replicate n .idle ++ [.finish]) =
      some later ∧ Concluded dialect later script := by
  obtain ⟨closed, closing, fits, same⟩ := close_run dialect tells.fits
  have isNone : closed.current = none := fits.current.trans close_current
  have finishing : closed.run [.finish] = some { closed with ended := true } :=
    Client.run_act fits.started fits.running (if_pos isNone)
  refine ⟨_, Client.run_append (Client.run_append closing
    (idles_run fits.started fits.running n)) finishing, rfl, isNone, ?_⟩
  rw [same]
  exact tells.told

theorem done_tells (tells : Tells dialect self client script) (done : GenDone) :
    ∃ later, client.run (self.takeEvent dialect (.genDone done)).1 = some later ∧
      Concluded dialect later { script with done := true } := by
  obtain ⟨later, run, ended, isNone, told⟩ := close_finish tells dialect.parting
  exact ⟨later, run, ended, isNone, told.reasoning, told.content, told.calls⟩

structure Seen (dialect : Dialect) (sender : BlockStream) (client : Option Client)
    (script : StreamTranscript) : Prop where
  running : script.done = false → ∃ later, client = some later ∧ Tells dialect sender later script
  concluded : script.done = true → script.late = false → ∃ later, client = some later ∧
    Concluded dialect later script
  refused : script.late = true → client = none

/-- **All items.** -/
theorem takeAll_seen (items : List StreamItem) (tells : Tells dialect self client script)
    (running : script.done = false) (prompt : script.late = false)
    (allowed : items.foldlM StreamTranscript.take script = some next) :
    Seen dialect (takeAll dialect self items).2 (client.run (takeAll dialect self items).1)
      next := by
  induction items generalizing self client script with
  | nil =>
    cases allowed
    refine ⟨fun _ => ⟨client, rfl, tells⟩, fun done => ?_, fun late => ?_⟩
    · rw [running] at done
      cases done
    · rw [prompt] at late
      cases late
  | cons item items ih =>
    rw [foldlM_cons] at allowed
    obtain ⟨middle, first, rest⟩ := Option.bind_eq_some_iff.mp allowed
    -- the frames of the first item, and then those of the others
    have onward : ∀ {later : Client}, client.run (self.take dialect item).1 = some later →
        client.run (takeAll dialect self (item :: items)).1 =
          later.run (takeAll dialect (self.take dialect item).2 items).1 := by
      intro later run
      unfold Client.run at run ⊢
      rw [takeAll, foldlM_append, run]
      rfl
    rcases StreamTranscript.take_cases first with ⟨rfl, rfl⟩ | ⟨ev, rfl, -, takes⟩
    · rw [running] at rest
      rw [onward (Client.run_act tells.fits.started tells.fits.running rfl)]
      exact ih tells running prompt rest
    · cases isDone : middle.done with
      | false =>
        obtain ⟨later, run, laterTells⟩ := takeEvent_tells tells takes isDone
        rw [onward run]
        exact ih laterTells isDone (takes.running.1.trans prompt) rest
      | true =>
        obtain ⟨done, rfl⟩ := takes.running.2.resolve_left fun same => by
          rw [same, running] at isDone
          cases isDone
        cases takes
        obtain ⟨later, run, concluded⟩ := done_tells tells done
        rw [onward run]
        rcases StreamTranscript.after_done rfl rest with
          ⟨rfl, rfl⟩ | ⟨⟨more, rfl⟩, nextLate, nextDone⟩
        · refine ⟨nofun, fun _ _ => ⟨later, rfl, concluded⟩, fun late => ?_⟩
          exact absurd (prompt.symm.trans late) Bool.false_ne_true
        · refine ⟨fun open_ => ?_, fun _ prompt => ?_, fun _ =>
            Client.run_ended concluded.1 .idle _⟩
          · exact absurd (nextDone.symm.trans open_) (by simp)
          · exact absurd (nextLate.symm.trans prompt) (by simp)

/-! ### When the client recovers the transcript -/

def Intact (dialect : Dialect) (call : ClosedCall) : Prop :=
  call.started.cut = none ∧
    (dialect.sendsUnstable = true → call.started.fragments <+: call.parameters)

theorem closedViews_iff (dialect : Dialect) (call : ClosedCall)
    (stable : call.started.stable = true → call.started.fragments <+: call.parameters) :
    closedViews dialect call = [⟨call.started.name.getD [], call.parameters⟩] ↔
      Intact dialect call := by
  unfold Intact closedViews
  rcases Option.eq_none_or_eq_some call.started.cut with isCut | ⟨pre, isCut⟩
  · rw [isCut]
    have whole : ∀ {sent : Str},
        topped sent call.parameters = call.parameters ↔ sent <+: call.parameters := by
      intro sent
      unfold topped
      by_cases isPrefix : sent.isPrefixOf call.parameters
      · rw [if_pos isPrefix]
        exact ⟨fun _ => isPrefixOf_iff_prefix.mp isPrefix, fun _ => rfl⟩
      · rw [if_neg isPrefix]
        refine ⟨fun same => same ▸ prefix_rfl, fun isPart => ?_⟩
        exact absurd (List.isPrefixOf_iff_prefix.mpr isPart) isPrefix
    have sent : sentOf dialect call.started call.started.fragments <+: call.parameters ↔
        (dialect.sendsUnstable = true → call.started.fragments <+: call.parameters) := by
      unfold sentOf
      by_cases all : (call.started.stable || dialect.sendsUnstable) = true
      · rw [if_pos all]
        refine ⟨fun isPart _ => isPart, fun isPart => ?_⟩
        rcases (Bool.or_eq_true _ _).mp all with isStable | sends
        · exact stable isStable
        · exact isPart sends
      · rw [if_neg all]
        refine ⟨fun _ sends => absurd ?_ all, fun _ => nil_prefix⟩
        rw [sends, Bool.or_true]
    rw [cons.injEq, CallView.mk.injEq, whole, sent]
    simp
  · rw [isCut]
    refine ⟨fun same => ?_, fun both => ?_⟩
    · exact absurd (congrArg length same) (by simp)
    · cases both.1

theorem flatMap_eq_map {α β : Type} {views : α → List β} {view : α → β} (items : List α)
    (some_ : ∀ item ∈ items, views item ≠ []) :
    items.flatMap views = items.map view ↔ ∀ item ∈ items, views item = [view item] := by
  have least : ∀ {items : List α}, (∀ item ∈ items, views item ≠ []) →
      items.length ≤ (items.flatMap views).length := by
    intro items
    induction items with
    | nil => exact fun _ => le_rfl
    | cons item items ih =>
      intro some_
      have first := length_pos_iff.mpr (some_ item mem_cons_self)
      have rest := ih fun other mem => some_ other (mem_cons_of_mem _ mem)
      rw [flatMap_cons, length_append, length_cons]
      omega
  induction items with
  | nil => exact ⟨nofun, fun _ => rfl⟩
  | cons item items ih =>
    have someLater : ∀ other ∈ items, views other ≠ [] := fun other mem =>
      some_ other (mem_cons_of_mem _ mem)
    rw [flatMap_cons, map_cons, forall_mem_cons]
    constructor
    · intro same
      have first := length_pos_iff.mpr (some_ item mem_cons_self)
      have rest := least someLater
      have lengths := congrArg length same
      rw [length_append, length_cons, length_map] at lengths
      have single : (views item).length = [view item].length := by
        rw [length_singleton]
        omega
      obtain ⟨here, later⟩ := append_inj same single
      exact ⟨here, (ih someLater).mp later⟩
    · rintro ⟨here, later⟩
      rw [here, (ih someLater).mpr later]
      rfl

theorem of_iff {recovered : Recovered} (told : Told dialect recovered script)
    (sound : script.Sound) :
    recovered.Of script ↔ ∀ call ∈ script.closed, Intact dialect call := by
  have views : (∀ call ∈ script.closed, Intact dialect call) ↔
      script.closed.flatMap (closedViews dialect) =
        script.closed.map fun call => ⟨call.started.name.getD [], call.parameters⟩ := by
    rw [flatMap_eq_map]
    · exact forall₂_congr fun call mem =>
        (closedViews_iff dialect call (sound.stable call mem)).symm
    · intro call _ none
      unfold closedViews at none
      split at none <;> cases none
  rw [views]
  constructor
  · intro of
    obtain ⟨left, same, related⟩ := of.calls
    rw [told.calls] at same
    have lengths : (script.started.toList.map (openView dialect)).length = left.length := by
      rw [length_map, related.length_eq]
    exact (append_inj' same lengths).1
  · intro same
    refine ⟨told.reasoning, told.content, _, told.calls.trans (congrArg (· ++ _) same), ?_⟩
    cases isStarted : script.started with
    | none => exact .nil
    | some call =>
      refine .cons ⟨rfl, ?_⟩ .nil
      unfold openView sentOf
      split
      · rcases Option.eq_none_or_eq_some call.cut with isCut | ⟨pre, isCut⟩
        · rw [isCut]
          exact prefix_rfl
        · rw [isCut]
          exact sound.cut call isStarted pre isCut
      · exact nil_prefix

theorem greeting_run (n : Nat) :
    Client.run { } (.start :: replicate n .idle) = some { started := true } :=
  @idles_run { started := true } rfl rfl n

theorem greeted_tells : Tells dialect { } { started := true } { } :=
  ⟨⟨rfl, rfl, rfl, rfl⟩, ⟨rfl, rfl, rfl⟩, (Option.some_ne_none _).symm⟩

/-- **A client of the stream** is satisfied and recovers the transcript if and only if nothing came
behind the final event and all closed calls are intact. -/
theorem recovers_iff (dialect : Dialect) {ending : StreamEnd}
    (obeys : StreamTranscript.read items = some script) (ends : script.Ends ending) :
    Client.Satisfied (send dialect items ending) script ↔
      script.late = false ∧ ∀ call ∈ script.closed, Intact dialect call := by
  have sound := StreamTranscript.read_sound obeys
  let greeted : Client := { started := true }
  have greeting : Client.run { } (.start :: replicate dialect.opening .idle) = some greeted :=
    greeting_run dialect.opening
  have seen := takeAll_seen items (@greeted_tells dialect) rfl rfl obeys
  have whole : Client.read (send dialect items ending) =
      (greeted.run (takeAll dialect { } items).1).bind fun client =>
        client.run ((takeAll dialect { } items).2.finish dialect ending) := by
    unfold Client.run at greeting ⊢
    unfold Client.read send Client.run
    rw [foldlM_append, foldlM_append, greeting]
    rfl
  unfold Client.Satisfied
  rw [whole]
  cases isLate : script.late with
  | true =>
    rw [seen.refused isLate]
    refine ⟨fun satisfied => ?_, fun both => absurd both.1 (by decide)⟩
    obtain ⟨client, none, -⟩ := satisfied
    cases none
  | false =>
    obtain ⟨client, reached, ended, isNone, told⟩ : ∃ client,
        ((greeted.run (takeAll dialect { } items).1).bind fun client =>
          client.run ((takeAll dialect { } items).2.finish dialect ending)) = some client ∧
        Concluded dialect client script := by
      cases ending with
      | exhausted =>
        obtain ⟨later, run, concluded⟩ := seen.concluded ends isLate
        rw [run]
        exact ⟨later, rfl, concluded⟩
      | generationError msg code | exception msg =>
        obtain ⟨later, run, laterTells⟩ := seen.running ends
        rw [run]
        obtain ⟨last, closing, concluded⟩ := close_finish laterTells 0
        rw [replicate_zero, append_nil] at closing
        exact ⟨last, closing, concluded⟩
    rw [reached, ← of_iff told sound]
    constructor
    · rintro ⟨other, same, -, -, of⟩
      cases same
      exact ⟨rfl, of⟩
    · rintro ⟨-, of⟩
      exact ⟨client, rfl, ended, isNone, of⟩

end BlockStream

/-! ### Wire streams that send blocks -/

/-- A generator around the events: the frames in front of the `try`, one turn of the loop, and the
`except` clauses. The exception of a frame that cannot be encoded has a message of its own. -/
structure StreamAdapter (ε σ : Type) where
  opening : List ε
  initial : σ
  takeItem : σ → StreamItem → Generator (Attempt ε σ) σ
  finish : σ → StreamEnd → Generator (Attempt ε σ) σ
  encodes : ε → Bool
  refusal : ε → String

/-- Nothing is caught in front of the `try` or in an `except` clause. -/
def StreamAdapter.stream {ε σ : Type} (adapter : StreamAdapter ε σ) (items : List StreamItem)
    (ending : StreamEnd) : List ε :=
  let loop := Generator.each adapter.takeItem adapter.initial items
  let yielded := Attempt.yielded adapter.encodes
  let last :=
    match (yielded loop.events).2, loop.result with
    | some (frame, self), _ => adapter.finish self (.exception (str (adapter.refusal frame)))
    | none, some self => adapter.finish self ending
    | none, none => .lift none
  if adapter.opening.all adapter.encodes then
    adapter.opening ++ (yielded loop.events).1 ++ (yielded last.events).1
  else adapter.opening.takeWhile adapter.encodes

structure Sends {ε σ : Type} (op : ε → ClientOp) (view : σ → BlockStream)
    (comp : Generator (Attempt ε σ) σ) (outcome : List ClientOp × BlockStream) : Prop where
  frames : (comp.events.flatten.map fun frame => op frame.1) = outcome.1
  state : ∃ later, comp.result = some later ∧ view later = outcome.2

namespace Sends

variable {ε σ : Type} {op : ε → ClientOp} {view : σ → BlockStream}
  {comp : Generator (Attempt ε σ) σ} {first outcome : List ClientOp × BlockStream}
  {next : σ → Generator (Attempt ε σ) σ}

theorem pure {self : σ} : Sends op view (Pure.pure self) ([], view self) := ⟨rfl, self, rfl, rfl⟩

theorem bind (second : BlockStream → List ClientOp × BlockStream) (sends : Sends op view comp first)
    (rest : ∀ later, view later = first.2 → Sends op view (next later) (second (view later))) :
    Sends op view (comp >>= next) (first.1 ++ (second first.2).1, (second first.2).2) := by
  obtain ⟨later, ret, isView⟩ := sends.state
  obtain ⟨frames, last, lastReturned, lastView⟩ := rest later isView
  rw [isView] at frames lastView
  rw [Generator.bind_some ret]
  refine ⟨?_, last, lastReturned, lastView⟩
  rw [flatten_append, map_append, sends.frames, frames]

theorem single {frame : ε} {self later : σ} (rest : Sends op view (next later) outcome) :
    Sends op view (Attempt.single frame self >>= fun _ => next later)
      (op frame :: outcome.1, outcome.2) := by
  obtain ⟨frames, last, lastReturned, lastView⟩ := rest
  exact ⟨congrArg (op frame :: ·) frames, last, lastReturned, lastView⟩

theorem collect (sends : Sends op view comp outcome) :
    Sends op view (Attempt.collect comp) outcome := by
  refine ⟨?_, sends.state⟩
  rw [← sends.frames]
  exact congrArg (map _) (append_nil _)

/-- The loop around the turns. -/
theorem each {dialect : Dialect} {takeItem : σ → StreamItem → Generator (Attempt ε σ) σ}
    (turn : ∀ self item, Sends op view (takeItem self item) ((view self).take dialect item))
    (items : List StreamItem) (self : σ) : Sends op view (Generator.each takeItem self items)
      (BlockStream.takeAll dialect (view self) items) := by
  induction items generalizing self with
  | nil => exact .pure
  | cons item items ih =>
    exact bind (fun sender => BlockStream.takeAll dialect sender items) (turn self item)
      fun later _ => ih later

end Sends

/-- What an adapter sends, read by `op`, is what a sender of blocks in this dialect sends. Between
two turns its variables can be encoded, and so can a turn whose item can. -/
structure StreamAdapter.Speaks {ε σ : Type} (adapter : StreamAdapter ε σ) (dialect : Dialect)
    (op : ε → ClientOp) (view : σ → BlockStream) (Clean : σ → Prop) : Prop where
  opening : adapter.opening.map op = .start :: replicate dialect.opening .idle
  initial : view adapter.initial = { } ∧ Clean adapter.initial
  takeItem : ∀ self item, Sends op view (adapter.takeItem self item) ((view self).take dialect item)
  finish : ∀ self ending, ((adapter.finish self ending).events.flatten.map fun frame =>
    op frame.1) = (view self).finish dialect ending
  clean : ∀ self item, Clean self → item.Encodes ((view self).current = some .tool) →
    Attempt.Safe adapter.encodes Clean (adapter.takeItem self item)
  finishClean : ∀ self ending, Clean self → ending.Encodes →
    Attempt.Safe adapter.encodes (fun _ => True) (adapter.finish self ending)

theorem StreamItem.Encodes.mono {item : StreamItem} {pre after : Prop}
    (encodes : item.Encodes pre) (weaker : after → pre) : item.Encodes after := by
  unfold StreamItem.Encodes at encodes ⊢
  split
  · exact encodes
  · exact encodes
  · exact encodes
  · exact fun isOpen => encodes (weaker isOpen)
  · exact encodes
  · trivial

theorem StreamTranscript.Encodes.before {script next : StreamTranscript} (encodes : next.Encodes)
    (allowed : items.foldlM StreamTranscript.take script = some next) :
    script.Encodes := by
  induction items generalizing script with
  | nil =>
    cases allowed
    exact encodes
  | cons item items ih =>
    rw [foldlM_cons] at allowed
    obtain ⟨middle, first, rest⟩ := Option.bind_eq_some_iff.mp allowed
    exact (StreamTranscript.take_encodes first (ih rest)).1

theorem StreamTranscript.Forwards.start
    {script next : StreamTranscript} (forwards : next.Forwards) (encodes : next.Encodes)
    (whole : ∀ call ∈ next.closed, call.InOnePiece)
    (allowed : items.foldlM StreamTranscript.take script = some next) :
    script.Forwards ∧ ∀ call ∈ script.closed, call.InOnePiece := by
  induction items generalizing script with
  | nil =>
    cases allowed
    exact ⟨forwards, whole⟩
  | cons item items ih =>
    rw [foldlM_cons] at allowed
    obtain ⟨middle, first, rest⟩ := Option.bind_eq_some_iff.mp allowed
    obtain ⟨later, pieces⟩ := ih rest
    obtain ⟨pre, prev, -⟩ := later.before first (encodes.before rest) pieces
    exact ⟨prev, pre⟩

theorem BlockStream.Tells.hears_iff {dialect : Dialect} {sender : BlockStream} {client : Client}
    {script : StreamTranscript} (tells : Tells dialect sender client script) :
    sender.current = some .tool ↔ script.Hears := by
  have holds := tells.holds
  unfold Holds at holds
  unfold StreamTranscript.Hears
  cases isStarted : script.started with
  | none =>
    rw [isStarted] at holds
    exact ⟨fun isTool => absurd isTool holds, fun hears => by simp at hears⟩
  | some call =>
    rw [isStarted] at holds
    dsimp only at holds
    rcases Option.eq_none_or_eq_some call.cut with isCut | ⟨pre, isCut⟩
    · rw [isCut] at holds
      exact ⟨fun _ => ⟨call, rfl, isCut⟩, fun _ => holds.1⟩
    · rw [isCut] at holds
      refine ⟨fun isTool => absurd isTool holds, ?_⟩
      rintro ⟨other, same, isNone⟩
      cases same
      rw [isCut] at isNone
      cases isNone

namespace StreamAdapter

variable {ε σ : Type} {adapter : StreamAdapter ε σ} {dialect : Dialect} {op : ε → ClientOp}
  {view : σ → BlockStream} {Clean : σ → Prop}

/-- The loop gets to a fragment that cannot be encoded, and everything before it can be. -/
def Stops (adapter : StreamAdapter ε σ) (view : σ → BlockStream) (self : σ)
    (items : List StreamItem) (script : StreamTranscript) : Prop :=
  ∃ pre item after middle later, items = pre ++ item :: after ∧
    pre.foldlM StreamTranscript.take script = some middle ∧
    middle.Breaks item ∧ (view later).current = some .tool ∧
    (Generator.each adapter.takeItem self pre).result = some later ∧
    ∀ frame ∈ (Generator.each adapter.takeItem self pre).events.flatten,
      adapter.encodes frame.1 = true

/-- **The loop**: all that it sends can be encoded, or it stops. -/
theorem Speaks.loop (speaks : adapter.Speaks dialect op view Clean) (items : List StreamItem)
    {self : σ} {script next : StreamTranscript} (clean : Clean self)
    (forwards : script.Forwards) (encodes : next.Encodes)
    (allowed : items.foldlM StreamTranscript.take script = some next)
    (known : script.done = false → ∃ client, BlockStream.Tells dialect (view self) client script) :
    (Attempt.Safe adapter.encodes Clean (Generator.each adapter.takeItem self items) ∧
      next.Forwards) ∨ adapter.Stops view self items script := by
  induction items generalizing self script with
  | nil =>
    cases allowed
    exact .inl ⟨.pure clean, forwards⟩
  | cons item items ih =>
    rw [foldlM_cons] at allowed
    obtain ⟨middle, first, rest⟩ := Option.bind_eq_some_iff.mp allowed
    have running : script.done = true → item = .keepalive := fun done =>
      (StreamTranscript.take_cases first).elim And.left fun ⟨_, _, running, _⟩ =>
        absurd (done.symm.trans running) (by simp)
    have hears : script.done = false →
        ((view self).current = some .tool ↔ script.Hears) := fun isRunning =>
      (known isRunning).elim fun _ tells => tells.hears_iff
    by_cases broken : script.Breaks item
    · have isRunning : script.done = false := by
        by_contra done
        rw [running (Bool.not_eq_false _ ▸ done)] at broken
        exact broken
      have isTool : (view self).current = some .tool := by
        cases item with
        | keepalive => exact broken.elim
        | event ev =>
          cases ev with
          | toolCallArgsDelta _ _ => exact (hears isRunning).mpr broken.1
          | _ => exact broken.elim
      exact .inr ⟨[], item, items, script, self, rfl, rfl, broken, isTool, rfl, nofun⟩
    · have told : item.Encodes script.Hears :=
        (StreamTranscript.take_encodes first (encodes.before rest)).2.resolve_left broken
      have sent : item.Encodes ((view self).current = some .tool) := by
        cases isDone : script.done with
        | true =>
          rw [running isDone]
          trivial
        | false => exact told.mono (hears isDone).mp
      obtain ⟨all, laterClean⟩ := speaks.clean self item clean sent
      obtain ⟨-, later, ret, isView⟩ := speaks.takeItem self item
      have laterKnown : middle.done = false → ∃ client,
          BlockStream.Tells dialect (view later) client middle := by
        intro laterRunning
        rw [isView]
        rcases StreamTranscript.take_cases first with ⟨rfl, rfl⟩ | ⟨ev, rfl, isRunning, takes⟩
        · split at laterRunning
          · rename_i isDone
            exact absurd (isDone.symm.trans laterRunning) (by simp)
          · rename_i isRunning
            rw [if_neg isRunning]
            exact known (Bool.not_eq_true _ ▸ isRunning)
        · obtain ⟨client, tells⟩ := known isRunning
          obtain ⟨last, -, lastTells⟩ := BlockStream.takeEvent_tells tells takes laterRunning
          exact ⟨last, lastTells⟩
      rcases ih (laterClean later ret) (forwards.take first broken) rest laterKnown with
        ⟨others, lastForwards⟩ | ⟨pre, other, after, last, stopped, rfl, reached,
          breaks, isTool, stoppedAt, others⟩
      · rw [Generator.each_cons ret]
        refine .inl ⟨⟨?_, others.returns⟩, lastForwards⟩
        rw [flatten_append]
        exact forall_mem_append.mpr ⟨all, others.frames⟩
      · refine .inr ⟨item :: pre, other, after, last, stopped, rfl, ?_, breaks, isTool, ?_, ?_⟩
        · rw [foldlM_cons, first]
          exact reached
        · rw [Generator.each_cons ret]
          exact stoppedAt
        · rw [Generator.each_cons ret, flatten_append]
          exact forall_mem_append.mpr ⟨all, others⟩

/-- The loop does not stop where every closed call is in one piece and the fragments of the last one
can be encoded. -/
theorem Stops.not_whole {self : σ} {items : List StreamItem} {script next : StreamTranscript}
    (stops : adapter.Stops view self items script)
    (allowed : items.foldlM StreamTranscript.take script = some next)
    (encodes : next.Encodes) (whole : ∀ call ∈ next.closed, call.InOnePiece) :
    ¬next.Forwards := by
  intro forwards
  obtain ⟨pre, item, after, middle, later, rfl, reached, breaks, -⟩ := stops
  rw [foldlM_append, reached] at allowed
  change (item :: after).foldlM StreamTranscript.take middle = some next at allowed
  rw [foldlM_cons] at allowed
  obtain ⟨last, first, rest⟩ := Option.bind_eq_some_iff.mp allowed
  obtain ⟨lastForwards, pieces⟩ := forwards.start encodes whole rest
  exact (lastForwards.before first (encodes.before rest) pieces).2.2 breaks

variable {items : List StreamItem} {ending : StreamEnd} {script : StreamTranscript}

/-- What is sent when all of it can be encoded. -/
theorem Speaks.sends (speaks : adapter.Speaks dialect op view Clean)
    (opens : ∀ frame ∈ adapter.opening, adapter.encodes frame = true)
    (safe : Attempt.Safe adapter.encodes Clean
      (Generator.each adapter.takeItem adapter.initial items)) (ends : ending.Encodes) :
    (adapter.stream items ending).map op = BlockStream.send dialect items ending := by
  obtain ⟨frames, later, ret, isView⟩ := Sends.each speaks.takeItem items adapter.initial
  have last := Attempt.yielded_all (speaks.finishClean later ending
    (safe.returns later ret) ends).frames
  have finished := speaks.finish later ending
  rw [speaks.initial.1] at frames isView
  rw [isView] at finished
  unfold stream BlockStream.send
  dsimp only
  rw [if_pos (all_eq_true.mpr opens), Attempt.yielded_all safe.frames, ret]
  rw [last, map_append, map_append, map_map, map_map, speaks.opening, ← finished, ← frames]
  rfl

/-- Nothing is sent where the first frame cannot be encoded. -/
theorem stream_refused {frame : ε} {more : List ε} (opening : adapter.opening = frame :: more)
    (refused : adapter.encodes frame = false) : adapter.stream items ending = [] := by
  unfold stream
  rw [opening, if_neg, takeWhile_cons, if_neg]
  · rw [refused]
    exact Bool.false_ne_true
  · rw [all_cons, refused]
    exact Bool.false_ne_true

/-- A client is not satisfied where the loop stops and the `except` clause raises too. -/
theorem Speaks.stops (speaks : adapter.Speaks dialect op view Clean)
    (opens : ∀ frame ∈ adapter.opening, adapter.encodes frame = true)
    (stops : adapter.Stops view adapter.initial items { })
    (obeys : StreamTranscript.read items = some script)
    (stuck : ∀ self ordinal fragment, (view self).current = some .tool → ¬Utf8 fragment →
      ∃ frame later, (adapter.takeItem self (.event (.toolCallArgsDelta ordinal fragment))).events =
        [[(frame, later)]] ∧ adapter.encodes frame = false ∧ ∀ msg,
          (Attempt.yielded adapter.encodes (adapter.finish later (.exception msg)).events).1 =
            []) : ¬Client.Satisfied ((adapter.stream items ending).map op) script := by
  obtain ⟨pre, item, after, middle, later, rfl, reached, breaks, isTool, ret, all⟩ := stops
  obtain ⟨ordinal, fragment, rfl, broken⟩ : ∃ ordinal fragment,
      item = .event (.toolCallArgsDelta ordinal fragment) ∧ ¬Utf8 fragment := by
    cases item with
    | keepalive => exact breaks.elim
    | event ev =>
      cases ev with
      | toolCallArgsDelta ordinal fragment => exact ⟨ordinal, fragment, rfl, breaks.2⟩
      | _ => exact breaks.elim
  obtain ⟨frame, stopped, attempt, refused, nothing⟩ := stuck later ordinal fragment isTool broken
  obtain ⟨frames, -, sameLater, -⟩ := Sends.each speaks.takeItem pre adapter.initial
  obtain ⟨-, next, moved, -⟩ := speaks.takeItem later (.event (.toolCallArgsDelta ordinal fragment))
  have loop : (Generator.each adapter.takeItem adapter.initial
      (pre ++ .event (.toolCallArgsDelta ordinal fragment) :: after)).events =
        (Generator.each adapter.takeItem adapter.initial pre).events ++
          [(frame, stopped)] :: (Generator.each adapter.takeItem next after).events := by
    rw [Generator.each_append, Generator.bind_some ret, Generator.each_cons moved, attempt]
    rfl
  have sent : (adapter.stream (pre ++ .event (.toolCallArgsDelta ordinal fragment) :: after)
      ending).map op = .start :: replicate dialect.opening .idle ++
        (BlockStream.takeAll dialect { } pre).1 := by
    unfold stream
    rw [if_pos (all_eq_true.mpr opens), loop, Attempt.yielded_append all,
      Attempt.yielded_refused refused]
    rw [nothing, append_nil, append_nil, map_append, map_map, speaks.opening,
      ← speaks.initial.1, ← frames]
    rfl
  have running : middle.done = false := by
    obtain ⟨⟨call, isStarted, -⟩, -⟩ := breaks
    rw [StreamTranscript.read, foldlM_append, reached] at obeys
    change (_ :: after).foldlM StreamTranscript.take middle = some script at obeys
    rw [foldlM_cons] at obeys
    obtain ⟨next, taken, -⟩ := Option.bind_eq_some_iff.mp obeys
    unfold StreamTranscript.take at taken
    dsimp only at taken
    split at taken
    · cases taken
    · rename_i isRunning
      exact Bool.not_eq_true _ ▸ isRunning
  obtain ⟨reader, isReader, tells⟩ :=
    (BlockStream.takeAll_seen pre BlockStream.greeted_tells rfl rfl reached).running running
  rw [sent]
  rintro ⟨client, isRead, ended, -⟩
  have whole : Client.read (.start :: replicate dialect.opening .idle ++
      (BlockStream.takeAll dialect { } pre).1) = some reader :=
    Client.run_append (BlockStream.greeting_run dialect.opening) isReader
  rw [whole] at isRead
  cases isRead
  rw [tells.fits.running] at ended
  cases ended

end StreamAdapter

end FreeToken
