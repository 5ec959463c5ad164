import Yuke.Ai.Wire.Anthropic
import Yuke.Ai.Wire.OpenaiChat
import Yuke.Ai.Wire.OpenaiResponses
import Yuke.Ai.Wire.Outgoing

/-!
# The request encoder

The encoder keeps each encoding, so the next request writes only the changed elements, the last
element, and the head. It hashes every block.
-/

set_option autoImplicit false

namespace Yuke.Ai

/-- Write the request up to its open context array. Return whether that array already holds an
element, as the Chat system message is one. -/
def writeHead (target : Target) (request : Request) : Write Bool :=
  match target.wire with
  | .anthropicMessages wire => do
    Anthropic.writeHead target wire request
    pure false
  | .openaiChat wire => OpenaiChat.writeHead target wire request
  | .openaiResponses wire => do
    OpenaiResponses.writeHead target wire request
    pure false

/-- Write the element of the group of blocks that starts at `start`, and return the end of the group.
`marker` is the block that carries the cache marker. -/
def writeGroup (isJson : String → Bool) (target : Target) (request : Request) (start : Nat)
    (marker : Option Nat) : Write Nat :=
  match target.wire with
  | .anthropicMessages _ => Anthropic.writeGroup isJson target request start marker
  | .openaiChat wire => OpenaiChat.writeGroup isJson target wire request start
  | .openaiResponses _ => OpenaiResponses.writeGroup isJson target request start marker

/-- The position of the last block that passes `test`. -/
def rposition (test : Block → Bool) (blocks : List Block) : Option Nat :=
  (blocks.reverse.findIdx? test).map fun i => blocks.length - 1 - i

def cacheIndex (wire : Wire) (blocks : List Block) : Option Nat :=
  match wire with
  | .anthropicMessages wire =>
    if wire.cache then rposition Anthropic.cacheable blocks else none
  | .openaiResponses wire =>
    if wire.cache then rposition OpenaiResponses.cacheable blocks else none
  | .openaiChat _ => none

/-! ## The encoder -/

structure ElementKey where
  protocol : Protocol
  origin : Origin
  defers : Bool
  replay : Option ReasoningReplayMode
  deriving DecidableEq

def elementKey (target : Target) (request : Request) : ElementKey where
  protocol := target.wire.protocol
  origin := Origin.of target
  defers := defersTools request.tools
  replay :=
    match target.wire with
    | .openaiChat wire => some wire.reasoningReplay
    | .anthropicMessages _ | .openaiResponses _ => none

/-- The 64-bit digests of the encoder, and the check of the tool arguments. -/
structure Digests where
  ofBlock : Block → Bool → UInt64
  ofKey : ElementKey → UInt64
  isJson : String → Bool

/-- An element starts at the block `block`, and at the offset `offset` before its comma. -/
structure Element where
  block : Nat
  offset : Nat
  deriving DecidableEq

/-- The encoder of one context. `items` holds the encoded elements, joined by commas, then the head
of the last request. -/
structure Encoder where
  items : List Char := []
  hashes : List UInt64 := []
  elements : List Element := []
  key : UInt64 := 0
  elementsEnd : Option Nat := none
  head : HeadText := {}
  deriving DecidableEq

structure Encoded where
  url : String
  headers : List Header
  body : List Char
  protocol : Protocol
  origin : Origin
  deriving DecidableEq

namespace Encoder

def hashBlocks (digests : Digests) (blocks : List Block) (marker : Option Nat) : List UInt64 :=
  blocks.mapIdx fun i block => digests.ofBlock block (marker = some i)

def sameCount : List UInt64 → List UInt64 → Nat
  | old :: olds, new :: news => if old = new then sameCount olds news + 1 else 0
  | _, _ => 0

def keep (digests : Digests) (encoder : Encoder) (key : UInt64) (blocks : List Block)
    (marker : Option Nat) : Encoder × Nat :=
  let complete := encoder.elementsEnd
  let cleared : Encoder := { encoder with key := key, elementsEnd := none }
  if encoder.key ≠ key then
    ({ cleared with items := [], hashes := [], elements := [] }, 0)
  else
    let same := sameCount encoder.hashes (hashBlocks digests blocks marker)
    let changed : Encoder × Nat :=
      let kept := { cleared with hashes := encoder.hashes.take same }
      -- The element that holds the last equal block encodes again.
      match encoder.elements.reverse.dropWhile fun element => decide (same ≤ element.block) with
      | last :: before =>
        ({ kept with items := encoder.items.take last.offset, elements := before.reverse },
          last.block)
      | [] => ({ kept with items := [], elements := [] }, 0)
    match complete with
    | some stop =>
      if same = blocks.length ∧ same = encoder.hashes.length then
        ({ cleared with items := encoder.items.take stop }, same)
      else changed
    | none => changed

/-- Write the groups from `start`. `fuel` bounds the groups. -/
def writeGroups (isJson : String → Bool) (target : Target) (request : Request)
    (marker : Option Nat) : Nat → Nat → List Element → JsonWriter →
      Except EncodeError Unit × List Element × JsonWriter
  | 0, _, elements, jw => (.ok (), elements, jw)
  | fuel + 1, start, elements, jw =>
    if start < request.blocks.length then
      let offset := jw.out.length
      match jw.run (writeGroup isJson target request start marker) with
      | (.error error, jw) => (.error error, elements ++ [⟨start, offset⟩], jw)
      | (.ok stop, jw) =>
        -- A group of blocks that the protocol drops records no element.
        let elements := if jw.out.length = offset then elements else elements ++ [⟨start, offset⟩]
        writeGroups isJson target request marker fuel stop elements jw
    else (.ok (), elements, jw)

def serialize (digests : Digests) (encoder : Encoder) (target : Target) (request : Request) :
    Except EncodeError Nat × Encoder :=
  let blocks := request.blocks
  let marker := cacheIndex target.wire request.cacheableBlocks
  let kept := encoder.keep digests (digests.ofKey (elementKey target request)) blocks marker
  let hashes := kept.1.hashes ++ (hashBlocks digests blocks marker).drop kept.1.hashes.length
  let jw : JsonWriter := ⟨kept.1.items, !kept.1.items.isEmpty⟩
  match writeGroups digests.isJson target request marker blocks.length kept.2 kept.1.elements jw with
  | (.error error, elements, jw) =>
    (.error error, { kept.1 with items := jw.out, hashes := hashes, elements := elements })
  | (.ok (), elements, jw) =>
    let stop := jw.out.length
    let head := JsonWriter.run ⟨jw.out, false⟩ (writeHead target request)
    let headElement : Bool :=
      match head.1 with
      | .ok written => written
      | .error _ => false
    let items := head.2.out ++ if headElement && stop ≠ 0 then [','] else []
    (.ok stop, { kept.1 with
      items := items, hashes := hashes, elements := elements, elementsEnd := some stop })

/-- Encode `request` for `target` with `credential`. -/
def encode (digests : Digests) (encoder : Encoder) (target : Target) (credential : Credential)
    (request : Request) : Except EncodeError Encoded × Encoder :=
  let sampling := request.settings.temperature.toList ++ request.settings.topP.toList
  -- Chat Completions has no search of deferred tools, so its target flag does not count.
  let searches := target.toolSearch && target.wire.protocol ≠ .openaiChat
  if sampling.all F64.isFinite = false then (.error .invalidSampling, encoder)
  else if !searches && defersTools request.tools then
    (.error (.unsupported .deferredTool), encoder)
  else
    match HeadText.build target credential request.sessionId with
    | .error error => (.error error, encoder)
    | .ok head =>
      match { encoder with head := head }.serialize digests target request with
      | (.error error, encoder) => (.error error, encoder)
      | (.ok stop, encoder) =>
        (.ok {
          url := encoder.head.url
          headers := encoder.head.headers
          body := encoder.items.drop stop ++ encoder.items.take stop ++ [']', '}']
          protocol := target.wire.protocol
          origin := encoder.head.origin }, encoder)

end Encoder

end Yuke.Ai
