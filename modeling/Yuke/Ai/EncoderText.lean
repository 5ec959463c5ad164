import Yuke.Ai.EncoderSays

/-!
# The text blocks of an Anthropic request

A body holds an empty text block exactly when the context holds an empty text. The system text, the
results of tools and the documents write none.
-/

set_option autoImplicit false

namespace Yuke.Ai

open Yuke.Shared

def IsEmptyText (item : Json) : Prop :=
  ∃ members, item = .object members ∧ field "type" (str "text") ∈ members ∧
    field "text" (str "") ∈ members

/-- The lists of content blocks of a body: the system text, the content of a message, and the content
of a tool result in one of them. -/
inductive ContentOf : Json → List Json → Prop where
  | system {members : JsonMembers} {items : List Json} (h : field "system" (.array items) ∈ members) :
      ContentOf (.object members) items
  | message {members parts : JsonMembers} {messages items : List Json}
      (h : field "messages" (.array messages) ∈ members) (hmessage : .object parts ∈ messages)
      (hcontent : field "content" (.array items) ∈ parts) : ContentOf (.object members) items
  | result {body : Json} {parts : JsonMembers} {items inner : List Json} (h : ContentOf body items)
      (hitem : .object parts ∈ items) (hcontent : field "content" (.array inner) ∈ parts) :
      ContentOf body inner

def WritesEmptyText (body : List Char) : Prop :=
  ∃ json items item, Json.parse body = some json ∧ ContentOf json items ∧ item ∈ items ∧
    IsEmptyText item

def EmptyText (block : Block) : Prop := block = .userText "" ∨ block = .assistantText ""

@[simp] theorem field_inj {name name' : String} {value value' : Json} :
    field name value = field name' value' ↔ name = name' ∧ value = value' := by
  unfold field
  rw [Prod.mk.injEq]
  constructor
  · rintro ⟨hname, hvalue⟩
    refine ⟨str_injective ?_, hvalue⟩
    unfold str
    rw [hname]
  · rintro ⟨rfl, rfl⟩
    exact ⟨rfl, rfl⟩

@[simp] theorem str_inj {text text' : String} : str text = str text' ↔ text = text' :=
  str_injective.eq_iff

theorem mem_mapM {α β : Type} {f : α → Except EncodeError β} {xs : List α} {ys : List β}
    (h : xs.mapM f = .ok ys) : ∀ y ∈ ys, ∃ x ∈ xs, f x = .ok y := by
  induction xs generalizing ys with
  | nil =>
    cases h
    intro y hy
    cases hy
  | cons x xs ih =>
    rw [List.mapM_cons] at h
    cases hx : f x with
    | error error =>
      rw [hx] at h
      cases h
    | ok z =>
      cases hxs : xs.mapM f with
      | error error =>
        rw [hx, hxs] at h
        cases h
      | ok zs =>
        rw [hx, hxs] at h
        cases h
        intro y hy
        rcases List.mem_cons.mp hy with rfl | hy
        · exact ⟨x, List.mem_cons_self, hx⟩
        · obtain ⟨x', hx', hfx'⟩ := ih hxs y hy
          exact ⟨x', List.mem_cons_of_mem x hx', hfx'⟩

theorem both_ok {α : Type} {first second : Except EncodeError (List α)} {values : List α}
    (h : both first second = .ok values) :
    ∃ xs ys, first = .ok xs ∧ second = .ok ys ∧ values = xs ++ ys := by
  cases first with
  | error error => cases h
  | ok xs =>
    cases second with
    | error error => cases h
    | ok ys =>
      cases h
      exact ⟨xs, ys, rfl, rfl, rfl⟩

theorem gather_ok {α β : Type} {f : α → Except EncodeError (List β)} {xs : List α}
    {values : List β} (h : gather xs f = .ok values) :
    (∀ x ∈ xs, ∃ own, f x = .ok own ∧ own ⊆ values) ∧
      ∀ value ∈ values, ∃ x ∈ xs, ∃ own, f x = .ok own ∧ value ∈ own := by
  induction xs generalizing values with
  | nil =>
    cases h
    exact ⟨fun _ hno => absurd hno List.not_mem_nil, fun _ hno => absurd hno List.not_mem_nil⟩
  | cons x xs ih =>
    obtain ⟨own, rest, hown, hrest, rfl⟩ := both_ok h
    obtain ⟨hall, hfrom⟩ := ih hrest
    constructor
    · intro y hy
      rcases List.mem_cons.mp hy with rfl | hy
      · exact ⟨own, hown, List.subset_append_left own rest⟩
      · obtain ⟨own', hown', hsubset⟩ := hall y hy
        exact ⟨own', hown', List.Subset.trans hsubset (List.subset_append_right own rest)⟩
    · intro value hvalue
      rcases List.mem_append.mp hvalue with hvalue | hvalue
      · exact ⟨x, List.mem_cons_self, own, hown, hvalue⟩
      · obtain ⟨y, hy, own', hown', hvalue'⟩ := hfrom value hvalue
        exact ⟨y, List.mem_cons_of_mem x hy, own', hown', hvalue'⟩

namespace Anthropic

/-! ## One block -/

structure Leaf (item : Json) : Prop where
  text : ¬IsEmptyText item
  content : ∀ parts inner, item = .object parts → field "content" (.array inner) ∉ parts

/-- A block that is an empty text only when `empty` holds, with leaves in its content. -/
structure Sound (empty : Prop) (item : Json) : Prop where
  text : IsEmptyText item → empty
  content : ∀ parts inner, item = .object parts → field "content" (.array inner) ∈ parts →
    ∀ x ∈ inner, Leaf x

theorem Leaf.sound {item : Json} (h : Leaf item) (empty : Prop) : Sound empty item where
  text htext := absurd htext h.text
  content parts inner hitem hcontent := absurd hcontent (h.content parts inner hitem)

theorem mem_cacheControl {cache : Bool} {member : List Nat × Json}
    (h : member ∈ cacheControl cache) : ∃ value, member = field "cache_control" value := by
  unfold cacheControl at h
  split at h
  · exact ⟨_, List.mem_singleton.mp h⟩
  · cases h

theorem not_mem_cacheControl {name : String} {value : Json} {cache : Bool}
    (hname : name ≠ "cache_control") : field name value ∉ cacheControl cache := by
  intro h
  obtain ⟨_, hmember⟩ := mem_cacheControl h
  exact hname (field_inj.mp hmember).1

theorem isEmptyText_textValue {text : String} {cache : Bool} :
    IsEmptyText (textValue text cache) ↔ text = "" := by
  have htext := @not_mem_cacheControl "text" (str "") cache (by decide)
  constructor
  · rintro ⟨members, hmembers, -, hempty⟩
    obtain rfl := Json.object.inj hmembers
    simp [htext] at hempty
    exact hempty
  · rintro rfl
    exact ⟨_, rfl, by simp, by simp⟩

theorem sound_textValue (text : String) (cache : Bool) :
    Sound (text = "") (textValue text cache) where
  text := isEmptyText_textValue.mp
  content parts inner hitem hcontent := by
    obtain rfl := Json.object.inj hitem
    have hcache := @not_mem_cacheControl "content" (.array inner) cache (by decide)
    simp [hcache] at hcontent

theorem leaf_mediaValue {blobs : Option BlobStore} {media : Media} {cache : Bool} {value : Json}
    (h : mediaValue blobs media cache = .ok value) : Leaf value := by
  unfold mediaValue at h
  cases hkind : blockType media.kind with
  | error error =>
    rw [hkind] at h
    cases h
  | ok kind =>
    cases hread : readBlob blobs media.blob with
    | error error =>
      rw [hkind, hread] at h
      cases h
    | ok data =>
      rw [hkind, hread] at h
      cases h
      have htext := @not_mem_cacheControl "text" (str "") cache (by decide)
      constructor
      · rintro ⟨members, hmembers, -, hno⟩
        obtain rfl := Json.object.inj hmembers
        simp [htext] at hno
      · intro parts inner hitem hcontent
        obtain rfl := Json.object.inj hitem
        have hcache := @not_mem_cacheControl "content" (.array inner) cache (by decide)
        simp [hcache] at hcontent

theorem leaf_referenceValue (tool : ToolDefinition) : Leaf (referenceValue tool) := by
  constructor
  · rintro ⟨members, hmembers, -, hno⟩
    obtain rfl := Json.object.inj hmembers
    simp at hno
  · intro parts inner hitem hcontent
    obtain rfl := Json.object.inj hitem
    simp at hcontent

theorem leaf_replayValue (reasoning : Reasoning) (replay : ReplayKind × String) :
    Leaf (replayValue reasoning replay) := by
  unfold replayValue
  split
  · constructor
    · rintro ⟨members, hmembers, -, hno⟩
      obtain rfl := Json.object.inj hmembers
      simp at hno
    · intro parts inner hitem hcontent
      obtain rfl := Json.object.inj hitem
      simp at hcontent
  · constructor
    · rintro ⟨members, hmembers, -, hno⟩
      obtain rfl := Json.object.inj hmembers
      simp at hno
    · intro parts inner hitem hcontent
      obtain rfl := Json.object.inj hitem
      simp at hcontent

theorem leaf_toolCallValue (call : ToolCall) (cache : Bool) : Leaf (toolCallValue call cache) := by
  constructor
  · rintro ⟨members, hmembers, -, hno⟩
    obtain rfl := Json.object.inj hmembers
    have htext := @not_mem_cacheControl "text" (str "") cache (by decide)
    simp [htext] at hno
  · intro parts inner hitem hcontent
    obtain rfl := Json.object.inj hitem
    have hcache := @not_mem_cacheControl "content" (.array inner) cache (by decide)
    simp [hcache] at hcontent

theorem sound_toolResultValue {request : Request} {result : ToolResult} {cache : Bool}
    {value : Json} (h : toolResultValue request result cache = .ok value) (empty : Prop) :
    Sound empty value := by
  unfold toolResultValue at h
  cases hcontent : contentValue request result with
  | error error =>
    rw [hcontent] at h
    cases h
  | ok content =>
    rw [hcontent] at h
    cases h
    constructor
    · rintro ⟨members, hmembers, -, hno⟩
      obtain rfl := Json.object.inj hmembers
      have htext := @not_mem_cacheControl "text" (str "") cache (by decide)
      simp [htext] at hno
    · intro parts inner hitem hinner
      obtain rfl := Json.object.inj hitem
      have hcache := @not_mem_cacheControl "content" (.array inner) cache (by decide)
      simp [hcache] at hinner
      subst hinner
      unfold contentValue at hcontent
      split at hcontent
      · cases hcontent
      · cases hmedia : result.media.mapM fun media => mediaValue request.blobs media false with
        | error error =>
          rw [hmedia] at hcontent
          cases hcontent
        | ok values =>
          rw [hmedia] at hcontent
          cases hcontent
          intro item hitem
          rcases List.mem_append.mp hitem with hitem | hitem
          · split at hitem
            next hsome =>
              obtain rfl := List.mem_singleton.mp hitem
              constructor
              · rintro ⟨members, hmembers, -, hempty⟩
                obtain rfl := Json.object.inj hmembers
                simp at hempty
                simp [← hempty] at hsome
              · intro parts inner hparts hcontent
                obtain rfl := Json.object.inj hparts
                simp at hcontent
            · cases hitem
          rcases List.mem_append.mp hitem with hitem | hitem
          · obtain ⟨media, -, hvalue⟩ := mem_mapM hmedia item hitem
            exact leaf_mediaValue hvalue
          · obtain ⟨tool, -, rfl⟩ := List.mem_map.mp hitem
            exact leaf_referenceValue tool

theorem sound_blockValues {target : Target} {request : Request} {block : Block} {cache : Bool}
    {values : List Json} (h : blockValues target request block cache = .ok values) :
    ∀ value ∈ values, Sound (EmptyText block) value := by
  cases block with
  | userText text =>
    cases h
    intro value hvalue
    obtain rfl := List.mem_singleton.mp hvalue
    have hsound := sound_textValue text cache
    exact ⟨fun hempty => .inl (congrArg Block.userText (hsound.text hempty)), hsound.content⟩
  | assistantText text =>
    cases h
    intro value hvalue
    obtain rfl := List.mem_singleton.mp hvalue
    have hsound := sound_textValue text cache
    exact ⟨fun hempty => .inr (congrArg Block.assistantText (hsound.text hempty)), hsound.content⟩
  | media media =>
    simp only [blockValues] at h
    cases hmedia : mediaValue request.blobs media cache with
    | error error =>
      rw [hmedia] at h
      cases h
    | ok item =>
      rw [hmedia] at h
      cases h
      intro value hvalue
      obtain rfl := List.mem_singleton.mp hvalue
      exact (leaf_mediaValue hmedia).sound _
  | reasoning reasoning =>
    cases h
    intro value hvalue
    cases hreplay : reasoning.replayTo target with
    | none =>
      rw [hreplay] at hvalue
      cases hvalue
    | some replay =>
      rw [hreplay] at hvalue
      obtain rfl := List.mem_singleton.mp hvalue
      exact (leaf_replayValue reasoning replay).sound _
  | toolCall call =>
    cases h
    intro value hvalue
    obtain rfl := List.mem_singleton.mp hvalue
    exact (leaf_toolCallValue call cache).sound _
  | toolResult result =>
    simp only [blockValues] at h
    cases hresult : toolResultValue request result cache with
    | error error =>
      rw [hresult] at h
      cases h
    | ok item =>
      rw [hresult] at h
      cases h
      intro value hvalue
      obtain rfl := List.mem_singleton.mp hvalue
      exact sound_toolResultValue hresult _

theorem emptyText_written {target : Target} {request : Request} {block : Block} {cache : Bool}
    (h : EmptyText block) : ∃ value, blockValues target request block cache = .ok [value] ∧
      IsEmptyText value := by
  rcases h with rfl | rfl
  · exact ⟨_, rfl, isEmptyText_textValue.mpr rfl⟩
  · exact ⟨_, rfl, isEmptyText_textValue.mpr rfl⟩

/-- A message of the blocks `run`, whose content is `content`. -/
structure IsMessage (target : Target) (request : Request) (run : List Block) (start : Nat)
    (marker : Option Nat) (message : Json) (content : List Json) : Prop where
  message : ∃ role : Role, message =
    .object [field "role" (str role.asStr), field "content" (.array content)]
  content : gather (run.zipIdx start) (fun entry =>
    blockValues target request entry.1 (marker = some entry.2)) = .ok content

theorem messageValues_ok {target : Target} {request : Request} {role : Role} {run : List Block}
    {start : Nat} {marker : Option Nat} {values : List Json}
    (h : messageValues target request role run start marker = .ok values) :
    (∀ value ∈ values, ∃ content, IsMessage target request run start marker value content) ∧
      (run.any (writes target) = true → values ≠ []) := by
  unfold messageValues at h
  split at h
  next hwrites =>
    cases hcontent : gather (run.zipIdx start) (fun entry =>
        blockValues target request entry.1 (marker = some entry.2)) with
    | error error =>
      rw [hcontent] at h
      cases h
    | ok content =>
      rw [hcontent] at h
      cases h
      refine ⟨fun value hvalue => ?_, fun _ hno => by cases hno⟩
      obtain rfl := List.mem_singleton.mp hvalue
      exact ⟨content, ⟨role, rfl⟩, hcontent⟩
  next hwrites =>
    cases h
    exact ⟨fun _ hno => absurd hno List.not_mem_nil, fun hyes => absurd hyes hwrites⟩

theorem groupValues_ok {target : Target} {request : Request} {start : Nat} {marker : Option Nat}
    {values : List Json} (h : groupValues target request start marker = .ok values) :
    (∀ value ∈ values, ∃ content,
        IsMessage target request (runFrom request.blocks start) start marker value content) ∧
      ((runFrom request.blocks start).any (writes target) = true → values ≠ []) := by
  unfold groupValues at h
  cases hfirst : request.blocks[start]? with
  | none =>
    rw [hfirst] at h
    cases h
    have hrun : runFrom request.blocks start = [] := by
      unfold runFrom
      rw [hfirst]
    rw [hrun]
    exact ⟨fun _ hno => absurd hno List.not_mem_nil, fun hno => by cases hno⟩
  | some first =>
    rw [hfirst] at h
    exact messageValues_ok h

theorem runFrom_subset (blocks : List Block) (start : Nat) : runFrom blocks start ⊆ blocks := by
  unfold runFrom
  split
  · exact List.Subset.trans (List.takeWhile_subset _) (List.drop_subset _ _)
  · exact List.nil_subset _

theorem mem_runFrom {blocks : List Block} {start i : Nat} {block : Block} (hstart : start ≤ i)
    (hblock : blocks[i]? = some block) (hend : i < groupEnd blocks start) :
    block ∈ runFrom blocks start := by
  unfold groupEnd at hend
  have hi : i - start < (runFrom blocks start).length := by omega
  have hrun : ∀ run : List Block, run <+: blocks.drop start → i - start < run.length →
      block ∈ run := by
    rintro run ⟨rest, hrest⟩ hlength
    have hdrop : (blocks.drop start)[i - start]? = some block := by
      rw [List.getElem?_drop, Nat.add_sub_cancel' hstart]
      exact hblock
    rw [← hrest, List.getElem?_append_left hlength] at hdrop
    exact List.mem_of_getElem? hdrop
  apply hrun _ _ hi
  unfold runFrom
  split
  · exact List.takeWhile_prefix _
  · exact List.nil_prefix

end Anthropic

section Context

variable {target : Target} {wire : AnthropicWire} (hwire : target.wire = .anthropicMessages wire)
  {request : Request} {marker : Option Nat}
include hwire

theorem groupValues_anthropic (start : Nat) : groupValues target request start marker =
    Anthropic.groupValues target request start marker := by
  unfold groupValues
  rw [hwire]

theorem groupEnd_anthropic (blocks : List Block) (start : Nat) :
    groupEnd target blocks start = Anthropic.groupEnd blocks start := by
  unfold groupEnd
  rw [hwire]

theorem valuesFrom_ok {start : Nat} {items : List Json}
    (h : valuesFrom target request marker start = .ok items) :
    (∀ item ∈ items, ∃ first content, Anthropic.IsMessage target request
        (Anthropic.runFrom request.blocks first) first marker item content) ∧
      ∀ i block, start ≤ i → request.blocks[i]? = some block → writes target block = true →
        ∃ item ∈ items, ∃ first content, block ∈ Anthropic.runFrom request.blocks first ∧
          Anthropic.IsMessage target request (Anthropic.runFrom request.blocks first) first marker item
            content := by
  induction hlength : request.blocks.length - start using Nat.strong_induction_on
    generalizing start items with
  | _ length ih =>
    rw [valuesFrom] at h
    split at h
    next hlt =>
      obtain ⟨values, rest, hvalues, hrest, rfl⟩ := both_ok h
      rw [groupValues_anthropic hwire] at hvalues
      rw [groupEnd_anthropic hwire] at hrest
      have hadvance := Anthropic.lt_groupEnd hlt
      obtain ⟨hmessages, hsome⟩ := Anthropic.groupValues_ok hvalues
      obtain ⟨hmessages', hsome'⟩ := ih _ (by omega) hrest rfl
      constructor
      · intro item hitem
        rcases List.mem_append.mp hitem with hitem | hitem
        · exact ⟨start, hmessages item hitem⟩
        · exact hmessages' item hitem
      · intro i block hi hblock hwrites
        by_cases hend : i < Anthropic.groupEnd request.blocks start
        · have hmem := Anthropic.mem_runFrom hi hblock hend
          have hany : (Anthropic.runFrom request.blocks start).any (writes target) = true :=
            List.any_eq_true.mpr ⟨block, hmem, hwrites⟩
          obtain ⟨item, hitem⟩ := List.exists_mem_of_ne_nil values (hsome hany)
          obtain ⟨content, hmessage⟩ := hmessages item hitem
          exact ⟨item, List.mem_append_left rest hitem, start, content, hmem, hmessage⟩
        · obtain ⟨item, hitem, hrun⟩ := hsome' i block (by omega) hblock hwrites
          exact ⟨item, List.mem_append_right values hitem, hrun⟩
    next hge =>
      cases h
      refine ⟨fun _ hno => absurd hno List.not_mem_nil, fun i block hi hblock => ?_⟩
      have := (List.getElem?_eq_some_iff.mp hblock).1
      omega

end Context

/-! ## The body -/

theorem mem_elim {α : Type} {value : Option α} {f : α → List Nat × Json} {member : List Nat × Json}
    (h : member ∈ value.elim [] fun a => [f a]) : ∃ a, member = f a := by
  cases value with
  | none => cases h
  | some a => exact ⟨a, List.mem_singleton.mp h⟩

theorem mem_headMembers {target : Target} {wire : AnthropicWire} {request : Request}
    {member : List Nat × Json} (h : member ∈ Anthropic.headMembers target wire request) :
    member ∈ Anthropic.systemMembers wire request.system ∨
      ∃ name value, member = field name value ∧ name ≠ "system" ∧ name ≠ "messages" := by
  have hother : ∀ name value, name ≠ "system" → name ≠ "messages" → member = field name value →
      member ∈ Anthropic.systemMembers wire request.system ∨
        ∃ name value, member = field name value ∧ name ≠ "system" ∧ name ≠ "messages" :=
    fun name value hsystem hmessages hmember => .inr ⟨name, value, hmember, hsystem, hmessages⟩
  simp only [Anthropic.headMembers, List.mem_append, List.mem_cons, List.not_mem_nil, or_false,
    or_assoc] at h
  rcases h with h | h | h | h | h | h | h | h | h
  · exact hother _ _ (by decide) (by decide) h
  · exact hother _ _ (by decide) (by decide) h
  · exact hother _ _ (by decide) (by decide) h
  · obtain ⟨_, hmember⟩ := mem_elim h
    exact hother _ _ (by decide) (by decide) hmember
  · obtain ⟨_, hmember⟩ := mem_elim h
    exact hother _ _ (by decide) (by decide) hmember
  · obtain ⟨_, hmember⟩ := mem_elim h
    exact hother _ _ (by decide) (by decide) hmember
  · unfold Anthropic.outputConfig at h
    split at h
    · exact hother _ _ (by decide) (by decide) (List.mem_singleton.mp h)
    · cases h
  · exact .inl h
  · unfold Anthropic.toolsMembers at h
    split at h
    · rcases List.mem_cons.mp h with h | h
      · exact hother _ _ (by decide) (by decide) h
      · split at h
        · exact hother _ _ (by decide) (by decide) (List.mem_singleton.mp h)
        · cases h
    · cases h

theorem sound_system {wire : AnthropicWire} {system : String} {items : List Json} {empty : Prop}
    (h : field "system" (.array items) ∈ Anthropic.systemMembers wire system) :
    ∀ item ∈ items, Anthropic.Sound empty item := by
  unfold Anthropic.systemMembers at h
  split at h
  next hsome =>
    have hitems := (field_inj.mp (List.mem_singleton.mp h)).2
    cases hitems
    intro item hitem
    obtain rfl := List.mem_singleton.mp hitem
    have hsound := Anthropic.sound_textValue system wire.cache
    refine ⟨fun hempty => ?_, hsound.content⟩
    rw [hsound.text hempty] at hsome
    cases hsome
  · cases h

section Body

variable {target : Target} {wire : AnthropicWire} (hwire : target.wire = .anthropicMessages wire)
  {request : Request} {items : List Json} (hitems : contextValues target request = .ok items)
include hwire

theorem bodyValue_anthropic : bodyValue target request items = .object
    (Anthropic.headMembers target wire request ++ [field "messages" (.array items)]) := by
  unfold bodyValue headMembers headValues
  rw [hwire]
  rfl

include hitems

theorem sound_message {parts : JsonMembers} {content : List Json}
    (hmessage : .object parts ∈ items) (hcontent : field "content" (.array content) ∈ parts) :
    ∀ item ∈ content, Anthropic.Sound (∃ block ∈ request.blocks, EmptyText block) item := by
  intro item hitem
  obtain ⟨first, written, ⟨role, hobject⟩, hgather⟩ := (valuesFrom_ok hwire hitems).1 _ hmessage
  cases hobject
  simp only [List.mem_cons, field_inj, List.not_mem_nil, or_false] at hcontent
  rcases hcontent with ⟨hno, -⟩ | ⟨-, hsame⟩
  · cases (by decide : "content" ≠ "role") hno
  · cases hsame
    obtain ⟨entry, hentry, own, hown, hmem⟩ := (gather_ok hgather).2 item hitem
    have hsound := Anthropic.sound_blockValues hown item hmem
    have hblock : entry.1 ∈ request.blocks :=
      Anthropic.runFrom_subset _ _ (List.fst_mem_of_mem_zipIdx hentry)
    exact ⟨fun hempty => ⟨entry.1, hblock, hsound.text hempty⟩, hsound.content⟩

theorem sound_contentOf {content : List Json}
    (h : ContentOf (bodyValue target request items) content) :
    ∀ item ∈ content, Anthropic.Sound (∃ block ∈ request.blocks, EmptyText block) item := by
  have hbody := @bodyValue_anthropic target wire hwire request items
  generalize bodyValue target request items = body at h hbody
  induction h with
  | system hsystem =>
    cases hbody
    rcases List.mem_append.mp hsystem with hsystem | hsystem
    · rcases mem_headMembers hsystem with hsystem | ⟨name, value, hmember, hname, -⟩
      · exact sound_system hsystem
      · exact absurd (field_inj.mp hmember).1.symm hname
    · exact absurd (field_inj.mp (List.mem_singleton.mp hsystem)).1 (by decide)
  | message hmessages hmessage hcontent =>
    cases hbody
    rcases List.mem_append.mp hmessages with hmessages | hmessages
    · rcases mem_headMembers hmessages with hsystem | ⟨name, value, hmember, -, hname⟩
      · unfold Anthropic.systemMembers at hsystem
        split at hsystem
        · exact absurd (field_inj.mp (List.mem_singleton.mp hsystem)).1 (by decide)
        · cases hsystem
      · exact absurd (field_inj.mp hmember).1.symm hname
    · cases (field_inj.mp (List.mem_singleton.mp hmessages)).2
      exact sound_message hwire hitems hmessage hcontent
  | result _ hitem hcontent ih =>
    intro item hinner
    exact ((ih hbody _ hitem).content _ _ rfl hcontent item hinner).sound _

theorem emptyText_bodyValue :
    (∃ content item, ContentOf (bodyValue target request items) content ∧ item ∈ content ∧
      IsEmptyText item) ↔ ∃ block ∈ request.blocks, EmptyText block := by
  constructor
  · rintro ⟨content, item, hcontent, hitem, hempty⟩
    exact (sound_contentOf hwire hitems hcontent item hitem).text hempty
  · rintro ⟨block, hblock, hempty⟩
    obtain ⟨i, hi⟩ := List.mem_iff_getElem?.mp hblock
    have hwrites : writes target block = true := by
      rcases hempty with rfl | rfl
      · rfl
      · rfl
    obtain ⟨message, hmessage, first, content, hmem, ⟨role, hobject⟩, hgather⟩ :=
      (valuesFrom_ok hwire hitems).2 i block (Nat.zero_le i) hi hwrites
    obtain ⟨n, hn⟩ := List.mem_iff_getElem?.mp hmem
    have hn : (block, first + n) ∈ (Anthropic.runFrom request.blocks first).zipIdx first := by
      apply List.mk_mem_zipIdx_iff_le_and_getElem?_sub.mpr
      rw [Nat.add_sub_cancel_left]
      exact ⟨Nat.le_add_right first n, hn⟩
    obtain ⟨own, hown, hsubset⟩ := (gather_ok hgather).1 _ hn
    obtain ⟨value, hvalue, hemptyText⟩ := Anthropic.emptyText_written hempty
    rw [hvalue] at hown
    cases hown
    refine ⟨content, value, ?_, hsubset List.mem_cons_self, hemptyText⟩
    rw [bodyValue_anthropic hwire]
    subst hobject
    exact .message (List.mem_append_right _ List.mem_cons_self) hmessage
      (List.mem_cons_of_mem _ List.mem_cons_self)

end Body

end Yuke.Ai
