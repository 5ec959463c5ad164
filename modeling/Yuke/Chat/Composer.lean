import Yuke.Tui.Editor

/-!
# The composer of a chat

The draft of a composer as the blocks of an input, and back, and the composer itself: the sends, the
recalls of waiting inputs, the attached images and the browse. A call of the session is an event of
its own when it ends, so each order of the calls and their answers is a run.
-/

set_option autoImplicit false

namespace Yuke.Chat

open Yuke.Tui

inductive InputBlock where
  | userText (text : Text)
  | media (media : Media)
  | other
  deriving DecidableEq

def emptyDraft : EditorState := { text := [], selection := ⟨0, 0⟩, spans := [] }

/-- The text up to `stop`, when it has one. -/
def textBlock (text : Text) (start stop : ℕ) : List InputBlock :=
  if start < stop then [.userText (slice text start stop)] else []

def splitBlocks (text : Text) : ℕ → List EditorSpan → List InputBlock
  | start, [] => textBlock text start text.length
  | start, span :: spans =>
    match span.kind with
    | .paste => splitBlocks text start spans
    | .image media =>
      textBlock text start span.start ++ .media media :: splitBlocks text span.stop spans

def trimStart (text : Text) : Text := text.dropWhile isSpace

def trimEnd (text : Text) : Text := text.rdropWhile isSpace

def trim (text : Text) : Text := trimEnd (trimStart text)

def InputBlock.mapText (f : Text → Text) : InputBlock → InputBlock
  | .userText text => .userText (f text)
  | block => block

def InputBlock.isBlank : InputBlock → Bool
  | .userText text => trim text = []
  | _ => false

def mapLast (f : InputBlock → InputBlock) : List InputBlock → List InputBlock
  | [] => []
  | [block] => [f block]
  | block :: next :: blocks => block :: mapLast f (next :: blocks)

/-- The blocks of `draft`. Only the edges of the whole draft trim, and a run of white space alone
makes no block. -/
def blocksOf (draft : EditorState) : List InputBlock :=
  let blocks := splitBlocks draft.text 0 draft.spans
  let blocks := blocks.modifyHead (.mapText trimStart)
  (mapLast (.mapText trimEnd) blocks).filter fun block => !block.isBlank

def textOf (text : String) : Text := text.toList.map fun c => c.toNat.toUInt16

def imageLabel (count : ℕ) : Text := textOf ("[image " ++ toString (count + 1) ++ "]")

def addBlock (draft : Text × List EditorSpan) : InputBlock → Text × List EditorSpan
  | .userText text => (draft.1 ++ text, draft.2)
  | .media media =>
    (draft.1 ++ imageText,
      draft.2 ++ [{ start := draft.1.length, stop := draft.1.length + 1, kind := .image media,
                    label := imageLabel draft.2.length }])
  | .other => draft

def draftOf (content : List InputBlock) : EditorState :=
  let (text, spans) := content.foldl addBlock ([], [])
  { text, selection := ⟨text.length, text.length⟩, spans }

/-- `first` above `second`, a line end between them, each span kept. The caret is at the end. -/
def joined (first second : EditorState) : EditorState :=
  if second.text = [] then { first with selection := ⟨first.text.length, first.text.length⟩ }
  else
    let shift := first.text.length + 1
    let text := first.text ++ lineFeed :: second.text
    { text
      selection := ⟨text.length, text.length⟩
      spans := first.spans ++
        second.spans.map fun span => shifted span (span.start + shift) (span.stop + shift) }

structure PendingInput where
  id : ℕ
  fromUser : Bool
  isMessage : Bool
  content : List InputBlock
  deriving DecidableEq

structure ChatEntry where
  key : ℕ
  isInput : Bool
  fromUser : Bool
  isMessage : Bool
  content : List InputBlock
  deriving DecidableEq

def PendingInput.NotAfter (a b : PendingInput) : Prop := a.id ≤ b.id

instance : DecidableRel PendingInput.NotAfter := fun a b => Nat.decLe a.id b.id

def waiting (pending : List PendingInput) : List PendingInput :=
  (pending.filter fun input => input.fromUser && input.isMessage).insertionSort
    PendingInput.NotAfter

/-- What `handle` answers: no session, one, or a failure. -/
inductive HandleAnswer where
  | absent
  | target
  | fails
  deriving DecidableEq

/-- What `removeInput` answers. -/
inductive RemovalAnswer where
  | removed
  | taken
  | fails
  deriving DecidableEq

/-! ## The composer -/

inductive SendPhase where
  | handle
  | message (draft : EditorState)
  deriving DecidableEq

inductive AttachPhase where
  | handle
  | store
  deriving DecidableEq

/-- What happened to the messages: a send took a draft out of the editor, the session accepted it, or
a failed send put it back; a recall removed a waiting input, and `shown` has the editor before and
after it when the recall put the input in the editor. -/
inductive ComposerEntry where
  | took (draft after : EditorState)
  | accepted (blocks : List InputBlock)
  | putBack (draft before after : EditorState)
  | removed (content : List InputBlock) (shown : Option (EditorState × EditorState))
  deriving DecidableEq

/-- The composer with its editor. A send that waits is `send`, a recall that waits has a `removal`,
and `attaches` are the attaches whose store has not ended. -/
structure Composer where
  multiline : Bool
  editor : EditorState
  send : Option SendPhase
  browse : Option ℕ
  recalled : Option ℕ
  removal : Option PendingInput
  attaches : List AttachPhase
  aborted : Bool
  log : List ComposerEntry
  deriving DecidableEq

namespace Composer

def new (multiline : Bool) (editor : EditorState) : Composer where
  multiline := multiline
  editor := editor
  send := none
  browse := none
  recalled := none
  removal := none
  attaches := []
  aborted := false
  log := []

variable (g : Graphemes) (s : Composer)

def textEditor : Editor := { multiline := s.multiline, state := s.editor, drag := none }

/-- The state that a `reset` of the editor to `draft` gives. -/
def resetTo (draft : EditorState) : Except Thrown EditorState :=
  checked g s.multiline draft.toInput

/-- What the change of the editor ends: an edit ends the browse, and an edit or a caret move ends a
recall. The extension of the composer hears no change after the abort. -/
def changed (call : Call) (after : EditorState) : Composer :=
  let t := { s with editor := after }
  if s.aborted then t
  else
    match call with
    | .replace .. => { t with browse := none, recalled := none }
    | .select .. => if after.selection = s.editor.selection then t else { t with recalled := none }
    | .replaceAll _ => t

def edit (call : Call) : Composer := s.changed call (s.textEditor.stateAfter g (some call))

def pasteSpan : ℕ := 300

def pasteLabel (count : ℕ) : Text := textOf ("[Pasted text · " ++ toString count ++ " chars]")

/-- Put `text` over the selection, with a span over all of it. -/
def put (text : Text) (span : SpanInput) : Composer :=
  s.edit g (.replace (.whole s.editor.low) (.whole s.editor.high) (some text) (some [some span]))

def paste (text : Text) : Composer :=
  if s.aborted ∨ text.length ≤ pasteSpan then
    s.edit g (EditorState.put s.editor.low s.editor.high text)
  else
    s.put g text
      { start := .whole 0, stop := .whole text.length, label := some (pasteLabel text.length),
        kind := .paste }

def setDraft (draft : EditorState) : Composer :=
  match s.resetTo g draft with
  | .error _ => s
  | .ok state => { s with editor := state, browse := none, recalled := none }

def startSend : Composer :=
  if s.send.isSome ∨ s.attaches ≠ [] ∨ blocksOf s.editor = [] then s
  else { s with send := some .handle }

def takeDraft : HandleAnswer → Composer
  | .absent | .fails => { s with send := none }
  | .target =>
    if s.aborted ∨ blocksOf s.editor = [] then { s with send := none }
    else
      let t := s.setDraft g emptyDraft
      { t with send := some (.message s.editor), log := s.log ++ [.took s.editor t.editor] }

def accept (draft : EditorState) : Composer :=
  { s with send := none, log := s.log ++ [.accepted (blocksOf draft)] }

def putBack (draft : EditorState) : Composer :=
  match s.resetTo g (joined draft s.editor) with
  | .error _ => { s with send := none }
  | .ok state =>
    { s.setDraft g (joined draft s.editor) with
      send := none, log := s.log ++ [.putBack draft s.editor state] }

/-- The message that `olderMessage` recalls: the newest one into an empty editor, after a recall the
next older one. -/
def recallable (pending : List PendingInput) : Option PendingInput :=
  match s.recalled with
  | none => if s.editor.text = [] then (waiting pending).getLast? else none
  | some before => ((waiting pending).filter fun input => input.id < before).getLast?

def messages (entries : List ChatEntry) : List ChatEntry :=
  entries.filter fun entry => entry.isInput && entry.fromUser && entry.isMessage

/-- The index of the shown message, or -1 when it is gone. Without a browse it is past the end. -/
def browseAt (list : List ChatEntry) : Int :=
  match s.browse with
  | none => list.length
  | some key =>
    match list.findIdx? fun entry => entry.key = key with
    | some index => index
    | none => -1

/-- Show an older (-1) or a newer (1) message of the user, or the empty editor after the newest. -/
def browseBy (step : Int) (entries : List ChatEntry) : Composer :=
  let list := messages entries
  let index := s.browseAt list + step
  match if index < 0 then none else list[index.toNat]? with
  | none => if step = 1 ∧ s.browse.isSome then s.setDraft g emptyDraft else s
  | some next =>
    match s.resetTo g (draftOf next.content) with
    | .error _ => s
    | .ok state => { s with editor := state, browse := some next.key }

/-- `attached` says that the chat has a handle now. -/
def olderMessage (pending : List PendingInput) (entries : List ChatEntry) (attached : Bool) :
    Composer :=
  if s.removal.isSome then s
  else
    match s.recallable pending with
    | some input =>
      if attached then { s with removal := some input, recalled := some input.id } else s
    | none =>
      if s.browse.isSome ∨ s.editor.text = [] then s.browseBy g (-1) entries else s

def endRecall (input : PendingInput) : RemovalAnswer → Composer
  | .taken | .fails => { s with removal := none }
  | .removed =>
    let left := { s with removal := none, log := s.log ++ [.removed input.content none] }
    if s.aborted then left
    else
      match s.resetTo g (joined (draftOf input.content) s.editor) with
      | .error _ => left
      | .ok state =>
        { s with
          editor := state, removal := none
          log := s.log ++ [.removed input.content (some (s.editor, state))] }

/-- The setup of the attach `index` ended. -/
def attachTo (index : ℕ) : HandleAnswer → Composer
  | .absent | .fails => { s with attaches := s.attaches.eraseIdx index }
  | .target =>
    if s.aborted then { s with attaches := s.attaches.eraseIdx index }
    else { s with attaches := s.attaches.set index .store }

def imageSpan (count : ℕ) (media : Media) : SpanInput where
  start := .whole 0
  stop := .whole 1
  label := some (imageLabel count)
  kind := .image (some
    { mime := .typed media.mime
      filename := .missing
      blob := some { digest := .typed media.digest, len := .whole media.len } })

def imageCount : ℕ := s.editor.spans.countP fun span => span.kind ≠ .paste

/-- The store of the attach `index` ended, with the stored image or without. The image goes where the
caret is now. -/
def attached (index : ℕ) (media : Option Media) : Composer :=
  let t := { s with attaches := s.attaches.eraseIdx index }
  match media with
  | none => t
  | some media => if s.aborted then t else t.put g imageText (imageSpan s.imageCount media)

end Composer

inductive ComposerEvent where
  | edit (call : Call)
  | paste (text : Text)
  | send
  | sendHandle (answer : HandleAnswer)
  | sendEnds (accepted : Bool)
  | olderMessage (pending : List PendingInput) (entries : List ChatEntry) (attached : Bool)
  | newerMessage (entries : List ChatEntry)
  | removal (answer : RemovalAnswer)
  | attachImage
  | attachHandle (index : ℕ) (answer : HandleAnswer)
  | stored (index : ℕ) (media : Option Media)
  | setDraft (draft : EditorState)
  | abort

def Composer.step (g : Graphemes) (s : Composer) : ComposerEvent → Option Composer
  | .edit call => some (s.edit g call)
  | .paste text => some (s.paste g text)
  | .send => some s.startSend
  | .sendHandle answer => if s.send = some .handle then some (s.takeDraft g answer) else none
  | .sendEnds accepted =>
    match s.send with
    | some (.message draft) => some (if accepted then s.accept draft else s.putBack g draft)
    | _ => none
  | .olderMessage pending entries attached => some (s.olderMessage g pending entries attached)
  | .newerMessage entries => some (s.browseBy g 1 entries)
  | .removal answer => s.removal.map fun input => s.endRecall g input answer
  | .attachImage => some { s with attaches := s.attaches ++ [.handle] }
  | .attachHandle index answer =>
    if s.attaches[index]? = some .handle then some (s.attachTo index answer) else none
  | .stored index media =>
    if s.attaches[index]? = some .store then some (s.attached g index media) else none
  | .setDraft draft => some (s.setDraft g draft)
  | .abort => some { s with aborted := true }

end Yuke.Chat
