import Yuke.Ai.EncoderGroups

/-!
# What an encoder keeps

The elements of an encoder are a start of the groups of its last request. What it keeps for the next
request is a start of the groups of that request too, so it goes on as a new encoder does.
-/

set_option autoImplicit false

namespace Yuke.Ai

open Yuke.Shared

/-! ## The calls of an encoder -/

structure Call where
  target : Target
  credential : Credential
  request : Request

def fullStore (content : Digest → List UInt8) : BlobStore := fun digest => .ok (some (content digest))

namespace Call

def resolved (call : Call) (content : Digest → List UInt8) : Request :=
  { call.request with blobs := some (fullStore content) }

def marker (call : Call) : Option Nat := cacheIndex call.target.wire call.request.cacheableBlocks

def key (call : Call) : ElementKey := elementKey call.target call.request

def encode (call : Call) (digests : Digests) (encoder : Encoder) :
    Except EncodeError Encoded × Encoder :=
  encoder.encode digests call.target call.credential call.request

def fresh (call : Call) (digests : Digests) (content : Digest → List UInt8) :
    Except EncodeError Encoded :=
  (Encoder.encode digests {} call.target call.credential (call.resolved content)).1

end Call

def afterCalls (digests : Digests) (calls : List Call) : Encoder :=
  calls.foldl (fun encoder call => (call.encode digests encoder).2) {}

/-- Equal digests of the calls name equal marked blocks and equal keys. -/
structure NoCollision (digests : Digests) (calls : List Call) : Prop where
  blocks : ∀ call ∈ calls, ∀ call' ∈ calls, ∀ block ∈ call.request.blocks,
    ∀ block' ∈ call'.request.blocks, ∀ marked marked',
      digests.ofBlock block marked = digests.ofBlock block' marked' →
        block = block' ∧ marked = marked'
  keys : ∀ call ∈ calls, ∀ call' ∈ calls, digests.ofKey call.key = digests.ofKey call'.key →
    call.key = call'.key

def ContentStore (content : Digest → List UInt8) (blobs : Option BlobStore) : Prop :=
  ∀ store ∈ blobs, ∀ digest bytes, store digest = .ok (some bytes) → bytes = content digest

section Encode

variable {digests : Digests} {content : Digest → List UInt8}

theorem ContentStore.knows {blobs : Option BlobStore} (h : ContentStore content blobs) :
    Knows blobs (some (fullStore content)) := by
  intro blob data hread
  unfold readBlob at hread ⊢
  cases blobs with
  | none => cases hread
  | some store =>
    cases hstore : store blob.digest with
    | error source =>
      simp [hstore] at hread
    | ok bytes =>
      cases bytes with
      | none => simp [hstore] at hread
      | some bytes =>
        simp only [hstore] at hread
        have hbytes := h store rfl blob.digest bytes hstore
        simp only [fullStore, ← hbytes]
        exact hread

/-- The encoder holds the elements of `call`, up to its end or up to a write that failed. -/
structure Keeps (digests : Digests) (content : Digest → List UInt8) (call : Call)
    (encoder : Encoder) : Prop where
  key : encoder.key = digests.ofKey call.key
  hashes : encoder.hashes = Encoder.hashBlocks digests call.request.blocks call.marker
  elements : ∀ before element after, encoder.elements = before ++ element :: after →
    ∃ jw, Groups digests.isJson call.target (call.resolved content) call.marker element.block before jw ∧
      jw.out.length = element.offset ∧ jw.out <+: encoder.items
  complete : ∀ stop, encoder.elementsEnd = some stop →
    ∃ jw, Groups digests.isJson call.target (call.resolved content) call.marker
      call.request.blocks.length encoder.elements jw ∧ jw.out.length = stop ∧ jw.out <+: encoder.items

theorem cacheIndex_lt {wire : Wire} {blocks : List Block} {i : Nat}
    (h : cacheIndex wire blocks = some i) : i < blocks.length := by
  have hposition : ∀ test : Block → Bool, rposition test blocks = some i → i < blocks.length := by
    intro test h
    obtain ⟨j, hj, rfl⟩ := Option.map_eq_some_iff.mp h
    have hlt := (List.findIdx?_eq_some_iff_getElem.mp hj).1
    rw [List.length_reverse] at hlt
    omega
  unfold cacheIndex at h
  cases wire with
  | anthropicMessages wire =>
    dsimp only at h
    split_ifs at h
    exact hposition _ h
  | openaiChat wire => cases h
  | openaiResponses wire =>
    dsimp only at h
    split_ifs at h
    exact hposition _ h

theorem marker_lt {call : Call} {i : Nat} (h : call.marker = some i) :
    i < call.request.blocks.length := by
  have hlt := cacheIndex_lt h
  unfold Request.cacheableBlocks at hlt
  rw [List.length_take] at hlt
  omega

theorem sameCount_le (olds news : List UInt64) :
    Encoder.sameCount olds news ≤ olds.length ∧ Encoder.sameCount olds news ≤ news.length ∧
      olds.take (Encoder.sameCount olds news) = news.take (Encoder.sameCount olds news) := by
  induction olds generalizing news with
  | nil => simp [Encoder.sameCount]
  | cons old olds ih =>
    cases news with
    | nil => simp [Encoder.sameCount]
    | cons new news =>
      unfold Encoder.sameCount
      split_ifs with heq
      · obtain ⟨hold, hnew, htake⟩ := ih news
        refine ⟨Nat.succ_le_succ hold, Nat.succ_le_succ hnew, ?_⟩
        rw [List.take_succ_cons, List.take_succ_cons, heq, htake]
      · simp

variable {calls : List Call} (hno : NoCollision digests calls) {call call' : Call}
  (hcall : call ∈ calls) (hcall' : call' ∈ calls)
include hno hcall hcall'

theorem agrees_of_hashes {bound : Nat} (hkey : digests.ofKey call.key = digests.ofKey call'.key)
    (hhashes : (Encoder.hashBlocks digests call.request.blocks call.marker).take bound =
      (Encoder.hashBlocks digests call'.request.blocks call'.marker).take bound)
    (hbound : bound ≤ call.request.blocks.length) (hbound' : bound ≤ call'.request.blocks.length) :
    Agrees bound call.target call'.target (call.resolved content) (call'.resolved content)
      call.marker call'.marker := by
  have hequal : ∀ i < bound, ∃ block, call.request.blocks[i]? = some block ∧
      call'.request.blocks[i]? = some block ∧ decide (call.marker = some i) = decide (call'.marker = some i) := by
    intro i hi
    have hlt : i < call.request.blocks.length := by omega
    have hlt' : i < call'.request.blocks.length := by omega
    have hget := congrArg (fun hashes => hashes[i]?) hhashes
    simp only [List.getElem?_take_of_lt hi, Encoder.hashBlocks, List.getElem?_mapIdx,
      List.getElem?_eq_getElem hlt, List.getElem?_eq_getElem hlt', Option.map_some] at hget
    obtain ⟨hblock, hmark⟩ := hno.blocks call hcall call' hcall' _ (List.getElem_mem hlt) _
      (List.getElem_mem hlt') _ _ (Option.some.inj hget)
    exact ⟨_, List.getElem?_eq_getElem hlt, hblock ▸ List.getElem?_eq_getElem hlt', hmark⟩
  refine ⟨hno.keys call hcall call' hcall' hkey, fun _ _ h => h, ?_, fun i hi => ?_⟩
  · refine List.ext_getElem? fun i => ?_
    by_cases hi : i < bound
    · obtain ⟨block, hblock, hblock', -⟩ := hequal i hi
      rw [List.getElem?_take_of_lt hi, List.getElem?_take_of_lt hi]
      exact hblock.trans hblock'.symm
    · rw [List.getElem?_take_eq_none (by omega), List.getElem?_take_eq_none (by omega)]
  · obtain ⟨-, -, -, hmark⟩ := hequal i hi
    exact decide_eq_decide.mp hmark

end Encode

/-- What `keep` leaves: the groups before the block to encode from, and the hashes before it. -/
structure Kept (digests : Digests) (content : Digest → List UInt8) (call : Call)
    (kept : Encoder) (start : Nat) : Prop where
  key : kept.key = digests.ofKey call.key
  hashes : kept.hashes = (Encoder.hashBlocks digests call.request.blocks call.marker).take
    kept.hashes.length
  elementsEnd : kept.elementsEnd = none
  groups : ∃ jw, Groups digests.isJson call.target (call.resolved content) call.marker start
    kept.elements jw ∧ jw.out = kept.items

theorem take_prefix_eq {text items : List Char} (h : text <+: items) :
    items.take text.length = text := (List.prefix_iff_eq_take.mp h).symm

theorem kept_of_keeps {digests : Digests} {content : Digest → List UInt8} {calls : List Call}
    (hno : NoCollision digests calls) {call call' : Call} (hcall : call ∈ calls)
    (hcall' : call' ∈ calls) {encoder : Encoder} (h : Keeps digests content call encoder) :
    Kept digests content call'
      (encoder.keep digests (digests.ofKey call'.key) call'.request.blocks call'.marker).1
      (encoder.keep digests (digests.ofKey call'.key) call'.request.blocks call'.marker).2 := by
  unfold Encoder.keep
  dsimp only
  by_cases hkey : encoder.key = digests.ofKey call'.key
  · rw [if_neg (not_not.mpr hkey)]
    have hkeys : digests.ofKey call.key = digests.ofKey call'.key := h.key.symm.trans hkey
    obtain ⟨hle, hle', htake⟩ := sameCount_le encoder.hashes
      (Encoder.hashBlocks digests call'.request.blocks call'.marker)
    generalize Encoder.sameCount encoder.hashes
      (Encoder.hashBlocks digests call'.request.blocks call'.marker) = same at hle hle' htake ⊢
    have hlength : encoder.hashes.length = call.request.blocks.length := by
      rw [h.hashes, Encoder.hashBlocks, List.length_mapIdx]
    have hlength' : (Encoder.hashBlocks digests call'.request.blocks call'.marker).length =
        call'.request.blocks.length := by rw [Encoder.hashBlocks, List.length_mapIdx]
    have hagree : ∀ bound ≤ same, Agrees bound call.target call'.target (call.resolved content)
        (call'.resolved content) call.marker call'.marker := by
      intro bound hbound
      refine agrees_of_hashes hno hcall hcall' hkeys ?_ (by omega) (by omega)
      rw [← h.hashes]
      have htake' := congrArg (List.take bound) htake
      rwa [List.take_take, List.take_take, Nat.min_eq_left hbound] at htake'
    have hwhole : ∀ stop, encoder.elementsEnd = some stop → same = call'.request.blocks.length ∧
        same = encoder.hashes.length → Kept digests content call'
          { encoder with
            key := digests.ofKey call'.key
            elementsEnd := none
            items := encoder.items.take stop } same := by
      intro stop hcomplete hwhole
      obtain ⟨jw, hgroups, hoffset, hprefix⟩ := h.complete stop hcomplete
      have hblocks : call.request.blocks = call'.request.blocks := by
        have hequal : call.request.blocks.take same = call'.request.blocks.take same :=
          (hagree same le_rfl).blocks
        rwa [List.take_of_length_le (by omega), List.take_of_length_le (by omega)] at hequal
      have hagreeAll : Agrees (call.request.blocks.length + 1) call.target call'.target
          (call.resolved content) (call'.resolved content) call.marker call'.marker := by
        refine ⟨(hagree same le_rfl).key, fun _ _ h => h, congrArg (List.take _) hblocks, ?_⟩
        intro i hi
        by_cases hlt : i < same
        · exact (hagree same le_rfl).marks i hlt
        · have hend : i = call.request.blocks.length := by omega
          have hnot : call.marker ≠ some i := fun hmarker => by
            have hbound := marker_lt hmarker
            omega
          have hnot' : call'.marker ≠ some i := fun hmarker => by
            have hbound := marker_lt hmarker
            omega
          exact ⟨fun h => absurd h hnot, fun h => absurd h hnot'⟩
      refine ⟨rfl, ?_, rfl, jw, ?_, ?_⟩
      · dsimp only
        rw [List.take_of_length_le (by omega)] at htake
        rw [htake, List.length_take, Nat.min_eq_left hle']
      · have hstop := hgroups.agree hagreeAll (Nat.lt_succ_self _)
        rw [hblocks, ← hwhole.1] at hstop
        exact hstop
      · rw [← hoffset]
        exact (take_prefix_eq hprefix).symm
    have hhashes : encoder.hashes.take same =
        (Encoder.hashBlocks digests call'.request.blocks call'.marker).take
          (encoder.hashes.take same).length := by
      rw [List.length_take, Nat.min_eq_left hle, htake]
    -- Without a block that changed, every element stays, else the ones before the last equal block.
    cases hdrop : encoder.elements.reverse.dropWhile fun element => decide (same ≤ element.block) with
    | nil =>
      have hchanged : Kept digests content call'
          { encoder with
            key := digests.ofKey call'.key
            elementsEnd := none
            hashes := encoder.hashes.take same
            items := []
            elements := [] } 0 := ⟨rfl, hhashes, rfl, ⟨[], false⟩, .nil, rfl⟩
      cases hcomplete : encoder.elementsEnd with
      | none => exact hchanged
      | some stop =>
        dsimp only
        split_ifs with hsame
        · exact hwhole stop hcomplete hsame
        · exact hchanged
    | cons last before =>
      have hlast : last.block < same := by
        have hnot := List.head?_dropWhile_not
          (fun element : Element => decide (same ≤ element.block)) encoder.elements.reverse
        rw [hdrop] at hnot
        simpa using hnot
      obtain ⟨dropped, hdropped⟩ := List.dropWhile_suffix
        (fun element : Element => decide (same ≤ element.block)) (l := encoder.elements.reverse)
      have hsplit : encoder.elements = before.reverse ++ last :: dropped.reverse := by
        rw [hdrop] at hdropped
        have hreverse := congrArg List.reverse hdropped
        simpa using hreverse.symm
      have hchanged : Kept digests content call'
          { encoder with
            key := digests.ofKey call'.key
            elementsEnd := none
            hashes := encoder.hashes.take same
            items := encoder.items.take last.offset
            elements := before.reverse } last.block := by
        obtain ⟨jw, hgroups, hoffset, hprefix⟩ := h.elements _ _ _ hsplit
        refine ⟨rfl, hhashes, rfl, jw, hgroups.agree (hagree same le_rfl) hlast, ?_⟩
        rw [← hoffset]
        exact (take_prefix_eq hprefix).symm
      cases hcomplete : encoder.elementsEnd with
      | none => exact hchanged
      | some stop =>
        dsimp only
        split_ifs with hsame
        · exact hwhole stop hcomplete hsame
        · exact hchanged
  · rw [if_pos hkey]
    exact ⟨rfl, rfl, rfl, ⟨[], false⟩, .nil, rfl⟩

def Holding (digests : Digests) (content : Digest → List UInt8) (calls : List Call)
    (encoder : Encoder) : Prop :=
  encoder.hashes = [] ∧ encoder.elements = [] ∧ encoder.elementsEnd = none ∨
    ∃ call ∈ calls, Keeps digests content call encoder

section Steps

variable {digests : Digests} {content : Digest → List UInt8} {calls : List Call}
  (hno : NoCollision digests calls) {call : Call} (hcall : call ∈ calls) {encoder : Encoder}

include hno hcall in
theorem kept_of_holding (h : Holding digests content calls encoder) :
    Kept digests content call
      (encoder.keep digests (digests.ofKey call.key) call.request.blocks call.marker).1
      (encoder.keep digests (digests.ofKey call.key) call.request.blocks call.marker).2 := by
  rcases h with ⟨hhashes, helements, hend⟩ | ⟨before, hbefore, hkeeps⟩
  · unfold Encoder.keep
    dsimp only
    rw [hhashes, helements, hend]
    by_cases hkey : encoder.key = digests.ofKey call.key
    · rw [if_neg (not_not.mpr hkey)]
      refine ⟨rfl, ?_, rfl, ⟨[], false⟩, .nil, rfl⟩
      exact List.take_nil.trans (congrArg (List.take · _) (congrArg List.length List.take_nil)).symm
    · rw [if_pos hkey]
      exact ⟨rfl, rfl, rfl, ⟨[], false⟩, .nil, rfl⟩
  · exact kept_of_keeps hno hbefore hcall hkeeps

theorem rehash_kept {kept : Encoder} {start : Nat} (h : Kept digests content call kept start) :
    Encoder.rehash digests call.target call.request kept =
      Encoder.hashBlocks digests call.request.blocks call.marker := by
  have happend := List.take_append_drop kept.hashes.length
    (Encoder.hashBlocks digests call.request.blocks call.marker)
  rw [← h.hashes] at happend
  exact happend

theorem keeps_serialize (hstore : ContentStore content call.request.blobs)
    (h : Kept digests content call
      (encoder.keep digests (digests.ofKey call.key) call.request.blocks call.marker).1
      (encoder.keep digests (digests.ofKey call.key) call.request.blocks call.marker).2) :
    Keeps digests content call (encoder.serialize digests call.target call.request).2 ∧
      ∀ stop, (encoder.serialize digests call.target call.request).1 = .ok stop →
        ∃ elements jw, newItems digests.isJson call.target (call.resolved content) = (.ok (), elements, jw) ∧
          stop = jw.out.length ∧ (encoder.serialize digests call.target call.request).2.items =
            jw.out ++ headOf call.target call.request jw.out := by
  cases hkeep : encoder.keep digests (digests.ofKey call.key) call.request.blocks call.marker with
  | mk kept start =>
    rw [hkeep] at h
    obtain ⟨jw, hgroups, hitems⟩ := h.groups
    have hjw : (⟨kept.items, !kept.items.isEmpty⟩ : JsonWriter) = jw := by
      rw [← hitems, ← hgroups.comma]
    have hagree : Agrees (call.request.blocks.length + 1) call.target call.target call.request
        (call.resolved content) call.marker call.marker :=
      ⟨rfl, hstore.knows, rfl, fun _ _ => Iff.rfl⟩
    cases hwrite : Encoder.writeGroups digests.isJson call.target call.request call.marker
      call.request.blocks.length start kept.elements ⟨kept.items, !kept.items.isEmpty⟩ with
    | mk outcome rest =>
      obtain ⟨elements, jw'⟩ := rest
      have hwrite' := hwrite
      rw [hjw] at hwrite'
      have hfuel : call.request.blocks.length - start ≤ call.request.blocks.length := Nat.sub_le _ _
      have hblocks : call.request.blocks = (call.resolved content).blocks := rfl
      obtain ⟨helements, hcomplete⟩ := hgroups.writeGroups hblocks hagree _ hfuel hwrite'
      have hhashes := rehash_kept h
      cases outcome with
      | error error =>
        rw [Encoder.serialize_error digests call.target call.request encoder hkeep hwrite]
        refine ⟨⟨h.key, hhashes, helements, ?_⟩, fun stop hok => nomatch hok⟩
        intro stop hstop
        rw [h.elementsEnd] at hstop
        cases hstop
      | ok =>
        have hall := hcomplete rfl
        rw [Encoder.serialize_ok digests call.target call.request encoder hkeep hwrite]
        refine ⟨⟨h.key, hhashes, ?_, ?_⟩, ?_⟩
        · intro before element after hsplit
          obtain ⟨jw₀, hgroups₀, hlength, hprefix⟩ := helements before element after hsplit
          exact ⟨jw₀, hgroups₀, hlength, hprefix.trans (List.prefix_append _ _)⟩
        · intro stop hstop
          cases hstop
          exact ⟨jw', hall, rfl, List.prefix_append _ _⟩
        · intro stop hstop
          cases hstop
          exact ⟨elements, jw', hall.newItems le_rfl, rfl, rfl⟩

theorem serialize_head (digests : Digests) (encoder : Encoder) (target : Target) (request : Request) :
    (encoder.serialize digests target request).2.head = encoder.head := by
  have hkeep : ∀ key blocks marker,
      (encoder.keep digests key blocks marker).1.head = encoder.head := by
    intro key blocks marker
    unfold Encoder.keep
    dsimp only
    repeat' split
    all_goals rfl
  unfold Encoder.serialize
  dsimp only
  split
  · exact hkeep _ _ _
  · exact hkeep _ _ _

theorem Holding.setHead (h : Holding digests content calls encoder) (head : HeadText) :
    Holding digests content calls { encoder with head := head } := by
  rcases h with hnew | ⟨before, hbefore, hkeeps⟩
  · exact .inl hnew
  · exact .inr ⟨before, hbefore, hkeeps.key, hkeeps.hashes, hkeeps.elements, hkeeps.complete⟩

theorem writeHead_resolved (call : Call) (content : Digest → List UInt8) :
    writeHead call.target (call.resolved content) = writeHead call.target call.request := by
  unfold writeHead
  cases call.target.wire with
  | anthropicMessages wire => rfl
  | openaiChat wire => rfl
  | openaiResponses wire => rfl

include hno hcall in
theorem encode_step (hstore : ContentStore content call.request.blobs)
    (h : Holding digests content calls encoder) :
    Holding digests content calls (call.encode digests encoder).2 ∧
      ∀ encoded, (call.encode digests encoder).1 = .ok encoded →
        call.fresh digests content = .ok encoded := by
  have hfresh : call.fresh digests content =
      newEncoded digests.isJson call.target call.credential (call.resolved content) :=
    Encoder.encode_new digests call.target (call.resolved content) call.credential
  have hsettings : (call.resolved content).settings = call.request.settings := rfl
  have htools : (call.resolved content).tools = call.request.tools := rfl
  have hsession : (call.resolved content).sessionId = call.request.sessionId := rfl
  rw [hfresh]
  unfold Call.encode Encoder.encode newEncoded
  dsimp only
  rw [hsettings, htools, hsession]
  split_ifs with hsampling hdefers
  · exact ⟨h, fun encoded hok => nomatch hok⟩
  · exact ⟨h, fun encoded hok => nomatch hok⟩
  · cases HeadText.build call.target call.credential call.request.sessionId with
    | error error => exact ⟨h, fun encoded hok => nomatch hok⟩
    | ok head =>
      have hkept := kept_of_holding hno hcall (h.setHead head)
      obtain ⟨hkeeps, hitems⟩ := keeps_serialize hstore hkept
      have hhead : ({ encoder with head := head }.serialize digests call.target call.request).2.head =
          head := serialize_head digests _ call.target call.request
      dsimp only
      generalize Encoder.serialize digests { encoder with head := head } call.target call.request =
        serialized at hkeeps hitems hhead ⊢
      obtain ⟨outcome, encoder'⟩ := serialized
      cases outcome with
      | error error => exact ⟨.inr ⟨call, hcall, hkeeps⟩, fun encoded hok => nomatch hok⟩
      | ok stop =>
        refine ⟨.inr ⟨call, hcall, hkeeps⟩, fun encoded hok => ?_⟩
        obtain ⟨elements, jw, hnew, rfl, htext⟩ := hitems stop rfl
        cases hok
        dsimp only at hhead htext
        unfold newBody
        rw [hnew, hhead, htext]
        unfold bodyOf headOf
        rw [writeHead_resolved]
        simp

end Steps

/-! ## Runs of calls -/

theorem encode_run (digests : Digests) (content : Digest → List UInt8) (calls : List Call)
    (call : Call) (hno : NoCollision digests (call :: calls))
    (hstores : ∀ made ∈ call :: calls, ContentStore content made.request.blobs) (encoded : Encoded)
    (h : (call.encode digests (afterCalls digests calls)).1 = .ok encoded) :
    call.fresh digests content = .ok encoded ∧
      ∀ answer, (call.encode digests {}).1 = .ok answer → answer = encoded := by
  have hafter : ∀ past : List Call, past ⊆ call :: calls → ∀ encoder,
      Holding digests content (call :: calls) encoder →
        Holding digests content (call :: calls)
          (past.foldl (fun encoder call => (call.encode digests encoder).2) encoder) := by
    intro past hpast
    induction past with
    | nil => exact fun encoder hencoder => hencoder
    | cons made past ih =>
      intro encoder hencoder
      obtain ⟨hmade, hrest⟩ := List.cons_subset.mp hpast
      exact ih hrest _ (encode_step hno hmade (hstores made hmade) hencoder).1
  have hnew : Holding digests content (call :: calls) {} := .inl ⟨rfl, rfl, rfl⟩
  have hcall : call ∈ call :: calls := List.mem_cons_self
  have hheld := hafter calls (List.subset_cons_self _ _) {} hnew
  unfold afterCalls at h
  have hfresh := (encode_step hno hcall (hstores call hcall) hheld).2 encoded h
  refine ⟨hfresh, fun answer hanswer => ?_⟩
  have hanswer' := (encode_step hno hcall (hstores call hcall) hnew).2 answer hanswer
  exact Except.ok.inj (hanswer'.symm.trans hfresh)

/-- An encoder that answers after any calls answers what a new encoder does with a store that lacks
no blob. When a new encoder answers with the store of the request, the two answers are equal. -/
theorem encode_eq_new (digests : Digests) (content : Digest → List UInt8) (calls : List Call)
    (call : Call) (hno : NoCollision digests (call :: calls))
    (hstores : ∀ made ∈ call :: calls, ContentStore content made.request.blobs) (encoded : Encoded)
    (h : (call.encode digests (afterCalls digests calls)).1 = .ok encoded) :
    call.fresh digests content = .ok encoded ∧
      ∀ answer, (call.encode digests {}).1 = .ok answer → answer = encoded :=
  encode_run digests content calls call hno hstores encoded h

namespace LostBlob

def picture : Media := ⟨⟨⟨Vector.replicate 32 0⟩, 1⟩, "image/png", ""⟩

def target : Target := ⟨"m", { baseUrl := "https://h/v1" }, .anthropicMessages ⟨8, false⟩, false⟩

def digests : Digests where
  ofBlock _ marked := if marked then 1 else 0
  ofKey _ := 0
  isJson text := (Json.parse text.toList).isSome

def call (blobs : Option BlobStore) : Call := ⟨target, .none, { blocks := [.media picture], blobs := blobs }⟩

def stored : Call := call (some (fullStore fun _ => [7]))

end LostBlob

theorem noCollision_call (calls : List (Option BlobStore)) :
    NoCollision LostBlob.digests (calls.map LostBlob.call) := by
  have hmarks : ∀ marked marked' : Bool,
      (if marked then 1 else 0 : UInt64) = (if marked' then 1 else 0) → marked = marked' := by decide
  constructor
  · intro made hmade made' hmade' block hblock block' hblock' marked marked' hequal
    obtain ⟨blobs, -, rfl⟩ := List.mem_map.mp hmade
    obtain ⟨blobs', -, rfl⟩ := List.mem_map.mp hmade'
    have hblock := List.mem_singleton.mp hblock
    have hblock' := List.mem_singleton.mp hblock'
    exact ⟨hblock.trans hblock'.symm, hmarks marked marked' hequal⟩
  · intro made hmade made' hmade' _
    obtain ⟨blobs, -, rfl⟩ := List.mem_map.mp hmade
    obtain ⟨blobs', -, rfl⟩ := List.mem_map.mp hmade'
    rfl

/-- The elements that an encoder keeps need no store, so it answers where a new encoder fails. -/
theorem encode_without_store :
    NoCollision LostBlob.digests [LostBlob.call none, LostBlob.stored] ∧
      ((LostBlob.call none).encode LostBlob.digests
        (afterCalls LostBlob.digests [LostBlob.stored])).1.isOk = true ∧
      ((LostBlob.call none).encode LostBlob.digests {}).1 =
        .error (.unresolvedBlob LostBlob.picture.blob.digest) :=
  ⟨noCollision_call [none, some (fullStore fun _ => [7])], rfl, rfl⟩

/-- A new encoder lacks the picture, and the one that keeps it answers as with the picture. -/
theorem encode_eq_new_stored : ∃ encoded,
    ((LostBlob.call none).encode LostBlob.digests
      (afterCalls LostBlob.digests [LostBlob.stored])).1 = .ok encoded ∧
    (LostBlob.call none).fresh LostBlob.digests (fun _ => [7]) = .ok encoded := by
  have hstores : ∀ made ∈ [LostBlob.call none, LostBlob.stored],
      ContentStore (fun _ => [7]) made.request.blobs := by
    intro made hmade store hstore digest bytes hbytes
    rcases List.mem_cons.mp hmade with rfl | hmade
    · cases hstore
    · rw [List.mem_singleton.mp hmade] at hstore
      cases hstore
      cases hbytes
      rfl
  cases hencoded : ((LostBlob.call none).encode LostBlob.digests
      (afterCalls LostBlob.digests [LostBlob.stored])).1 with
  | error error => cases hencoded
  | ok encoded =>
    exact ⟨encoded, rfl, (encode_eq_new LostBlob.digests (fun _ => [7]) [LostBlob.stored]
      (LostBlob.call none) (noCollision_call [none, some (fullStore fun _ => [7])]) hstores encoded
      hencoded).1⟩

theorem newEncoded_reads {isJson : String → Bool}
    (hjson : ∀ text, isJson text = true ↔ (Json.parse text.toList).isSome) {target : Target}
    {credential : Credential} {request : Request} (hraw : RawJson request) {encoded : Encoded}
    (h : newEncoded isJson target credential request = .ok encoded) :
    ∃ items, contextValues target request = .ok items ∧
      Json.parse encoded.body = some (bodyValue target request items) := by
  unfold newEncoded at h
  dsimp only at h
  split_ifs at h with hsampling hdefers
  have hfinite : ∀ float ∈ request.settings.temperature.toList ++ request.settings.topP.toList,
      float.isFinite = true := List.all_eq_true.mp (Bool.not_eq_false _ ▸ hsampling)
  have htold := newBody_reads hjson target hraw
    (fun float hfloat => hfinite float (List.mem_append_left _ (Option.mem_toList.mpr hfloat)))
    (fun float hfloat => hfinite float (List.mem_append_right _ (Option.mem_toList.mpr hfloat)))
  cases hhead : HeadText.build target credential request.sessionId with
  | error error =>
    rw [hhead] at h
    cases h
  | ok head =>
    rw [hhead] at h
    dsimp only at h
    cases hbody : newBody isJson target request with
    | error error =>
      rw [hbody] at h
      cases h
    | ok body =>
      rw [hbody] at h htold
      cases h
      cases hitems : contextValues target request with
      | error error =>
        rw [hitems] at htold
        cases htold
      | ok items =>
        rw [hitems] at htold
        exact ⟨items, rfl, Except.ok.inj htold⟩

end Yuke.Ai
