import Yuke.Ai.Encoder

/-!
# What a new encoder writes

A new encoder holds no element, so its request does not depend on the digests.
-/

set_option autoImplicit false

namespace Yuke.Ai

def newItems (isJson : String → Bool) (target : Target) (request : Request) :
    Except EncodeError Unit × List Element × JsonWriter :=
  Encoder.writeGroups isJson target request (cacheIndex target.wire request.cacheableBlocks)
    request.blocks.length 0 [] ⟨[], false⟩

/-- The head before the elements `items`. -/
def headOf (target : Target) (request : Request) (items : List Char) : List Char :=
  let head := writeHead target request false
  let headElement : Bool :=
    match head.result with
    | .ok written => written
    | .error _ => false
  head.text ++ if headElement && items.length ≠ 0 then [','] else []

/-- The body of the elements `items`. -/
def bodyOf (target : Target) (request : Request) (items : List Char) : List Char :=
  headOf target request items ++ items ++ [']', '}']

def newBody (isJson : String → Bool) (target : Target) (request : Request) :
    Except EncodeError (List Char) :=
  match newItems isJson target request with
  | (.error error, _, _) => .error error
  | (.ok (), _, jw) => .ok (bodyOf target request jw.out)

def newEncoded (isJson : String → Bool) (target : Target) (credential : Credential)
    (request : Request) : Except EncodeError Encoded :=
  let sampling := request.settings.temperature.toList ++ request.settings.topP.toList
  let searches := target.toolSearch && target.wire.protocol ≠ .openaiChat
  if sampling.all F64.isFinite = false then .error .invalidSampling
  else if !searches && defersTools request.tools then .error (.unsupported .deferredTool)
  else
    match HeadText.build target credential request.sessionId with
    | .error error => .error error
    | .ok head =>
      match newBody isJson target request with
      | .error error => .error error
      | .ok body => .ok ⟨head.url, head.headers, body, target.wire.protocol, head.origin⟩

namespace Encoder

variable (digests : Digests) (target : Target) (request : Request)

theorem keep_new (head : HeadText) (key : UInt64) (blocks : List Block) (marker : Option Nat) :
    keep digests { head := head } key blocks marker = ({ head := head, key := key }, 0) := by
  unfold keep
  dsimp only
  split
  · rfl
  · rfl

def rehash (kept : Encoder) : List UInt64 :=
  kept.hashes ++ (hashBlocks digests request.blocks
    (cacheIndex target.wire request.cacheableBlocks)).drop kept.hashes.length

section Serialize

variable (encoder : Encoder) {kept : Encoder} {start : Nat} {elements : List Element}
  {jw : JsonWriter}

theorem serialize_ok
    (hkeep : encoder.keep digests (digests.ofKey (elementKey target request)) request.blocks
      (cacheIndex target.wire request.cacheableBlocks) = (kept, start))
    (hgroups : writeGroups digests.isJson target request
      (cacheIndex target.wire request.cacheableBlocks) request.blocks.length start kept.elements
      ⟨kept.items, !kept.items.isEmpty⟩ = (.ok (), elements, jw)) :
    encoder.serialize digests target request =
      (.ok jw.out.length, { kept with
        items := jw.out ++ headOf target request jw.out
        hashes := rehash digests target request kept
        elements := elements
        elementsEnd := some jw.out.length }) := by
  unfold serialize
  dsimp only
  rw [hkeep]
  dsimp only
  rw [hgroups]
  dsimp only [JsonWriter.run, headOf]
  rw [List.append_assoc]
  rfl

theorem serialize_error {error : EncodeError}
    (hkeep : encoder.keep digests (digests.ofKey (elementKey target request)) request.blocks
      (cacheIndex target.wire request.cacheableBlocks) = (kept, start))
    (hgroups : writeGroups digests.isJson target request
      (cacheIndex target.wire request.cacheableBlocks) request.blocks.length start kept.elements
      ⟨kept.items, !kept.items.isEmpty⟩ = (.error error, elements, jw)) :
    encoder.serialize digests target request =
      (.error error, { kept with
        items := jw.out
        hashes := rehash digests target request kept
        elements := elements }) := by
  unfold serialize
  dsimp only
  rw [hkeep]
  dsimp only
  rw [hgroups]
  rfl

end Serialize

theorem encode_new (credential : Credential) :
    (encode digests {} target credential request).1 =
      newEncoded digests.isJson target credential request := by
  unfold encode newEncoded
  dsimp only
  split
  · rfl
  · split
    · rfl
    · cases hhead : HeadText.build target credential request.sessionId with
      | error error => rfl
      | ok head =>
        have hkeep := keep_new digests head (digests.ofKey (elementKey target request))
          request.blocks (cacheIndex target.wire request.cacheableBlocks)
        dsimp only
        unfold newBody newItems
        cases hgroups : writeGroups digests.isJson target request
          (cacheIndex target.wire request.cacheableBlocks) request.blocks.length 0 [] ⟨[], false⟩ with
        | mk result rest =>
          obtain ⟨elements, jw⟩ := rest
          cases result with
          | error error =>
            rw [serialize_error digests target request _ hkeep hgroups]
          | ok =>
            rw [serialize_ok digests target request _ hkeep hgroups]
            simp [bodyOf]

end Encoder

end Yuke.Ai
