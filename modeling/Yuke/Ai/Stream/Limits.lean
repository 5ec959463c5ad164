import Yuke.Ai.Stream.OpenaiChat

/-!
# The bounds of the reducers

A payload gives the draft at most the text that it holds, and each reducer keeps the bounds of its
blocks and items. No decode panics.
-/

set_option autoImplicit false

namespace Yuke.Ai

/-! ## The text of a document -/

namespace Value

mutual

def textBytes : Value → Nat
  | .string text => text.utf8ByteSize
  | .array items => itemBytes items
  | .object members => memberBytes members
  | _ => 0

def itemBytes : List Value → Nat
  | [] => 0
  | item :: items => textBytes item + itemBytes items

def memberBytes : List (String × Value) → Nat
  | [] => 0
  | (_, value) :: members => textBytes value + memberBytes members

end

/-- The bytes of the strings in the member `key`. -/
def bytesAt (value : Value) (key : String) : Nat := ((value.get key).map textBytes).getD 0

theorem bytesAt_of_get {value member : Value} {key : String} (h : value.get key = some member) :
    value.bytesAt key = member.textBytes := by
  rw [bytesAt, h]
  rfl

theorem sum_bytesAt_of_get {value : Value} (h : ∀ key, value.get key = none) (keys : List String) :
    (keys.map value.bytesAt).sum = 0 := by
  apply List.sum_eq_zero
  intro n hn
  obtain ⟨key, -, rfl⟩ := List.mem_map.mp hn
  rw [bytesAt, h]
  rfl

theorem sum_bytesAt (value : Value) {keys : List String} (hkeys : keys.Nodup) :
    (keys.map value.bytesAt).sum ≤ value.textBytes := by
  cases value with
  | object members =>
    induction members generalizing keys with
    | nil =>
      rw [sum_bytesAt_of_get fun _ => rfl]
      exact Nat.zero_le _
    | cons entry members ih =>
      obtain ⟨name, value⟩ := entry
      have hother : ∀ key ≠ name,
          bytesAt (.object ((name, value) :: members)) key = bytesAt (.object members) key := by
        intro key hkey
        simp [bytesAt, get, Ne.symm hkey]
      have hsame : bytesAt (.object ((name, value) :: members)) name = value.textBytes := by
        simp [bytesAt, get]
      change _ ≤ value.textBytes + memberBytes members
      by_cases hname : name ∈ keys
      · have hperm := List.perm_cons_erase hname
        have hrest := ih (hkeys.erase name)
        change _ ≤ memberBytes members at hrest
        have hsum := (hperm.map (bytesAt (.object ((name, value) :: members)))).sum_eq
        have hmap : (keys.erase name).map (bytesAt (.object ((name, value) :: members))) =
            (keys.erase name).map (bytesAt (.object members)) := by
          apply List.map_congr_left
          intro key hkey
          exact hother key ((List.Nodup.mem_erase_iff hkeys).mp hkey).1
        rw [hsum, List.map_cons, List.sum_cons, hsame, hmap]
        omega
      · have hmap : keys.map (bytesAt (.object ((name, value) :: members))) =
            keys.map (bytesAt (.object members)) := by
          apply List.map_congr_left
          intro key hkey
          exact hother key fun heq => hname (heq ▸ hkey)
        have hrest := ih hkeys
        change _ ≤ memberBytes members at hrest
        rw [hmap]
        omega
  | _ =>
    rw [sum_bytesAt_of_get fun _ => rfl]
    exact Nat.zero_le _

theorem bytesAt_le (value : Value) (key : String) : value.bytesAt key ≤ value.textBytes := by
  simpa using sum_bytesAt value (List.nodup_singleton key)

theorem getStr_le {value : Value} {key text : String} (h : value.getStr key = some text) :
    text.utf8ByteSize ≤ value.bytesAt key := by
  obtain ⟨member, hmember, htext⟩ := Option.bind_eq_some_iff.mp h
  rw [bytesAt_of_get hmember]
  cases member with
  | string found =>
    cases htext
    exact Nat.le_refl _
  | _ => cases htext

theorem getD_getStr_le (value : Value) (key : String) :
    ((value.getStr key).getD "").utf8ByteSize ≤ value.bytesAt key := by
  cases h : value.getStr key with
  | none => simp
  | some text => simpa using getStr_le h

theorem itemBytes_eq_sum (items : List Value) : itemBytes items = (items.map textBytes).sum := by
  induction items with
  | nil => rfl
  | cons item items ih => rw [itemBytes, ih, List.map_cons, List.sum_cons]

theorem getArray_bytes {value : Value} {key : String} {items : List Value}
    (h : value.getArray key = some items) : (items.map textBytes).sum = value.bytesAt key := by
  obtain ⟨member, hmember, hitems⟩ := Option.bind_eq_some_iff.mp h
  rw [bytesAt_of_get hmember]
  cases member with
  | array found =>
    cases hitems
    exact (itemBytes_eq_sum _).symm
  | _ => cases hitems

end Value

section Ensures

variable {α β σ : Type}

/-- The decode does not panic, and what it gives meets `post`. -/
def Ensures (post : α → Prop) : Except Halt α → Prop
  | .ok a => post a
  | .error (.error _) => True
  | .error .panics => False

theorem Ensures.mono {p q : α → Prop} {x : Except Halt α} (h : Ensures p x)
    (himp : ∀ a, p a → q a) : Ensures q x := by
  cases x with
  | ok a => exact himp a h
  | error halt =>
    cases halt with
    | error _ => exact trivial
    | panics => exact h

theorem Ensures.bind {p : α → Prop} {q : β → Prop} {x : Except Halt α} {f : α → Except Halt β}
    (h : Ensures p x) (hf : ∀ a, p a → Ensures q (f a)) : Ensures q (x >>= f) := by
  cases x with
  | ok a => exact hf a h
  | error halt =>
    cases halt with
    | error _ => exact trivial
    | panics => exact h

theorem ensures_pure {p : α → Prop} {a : α} (h : p a) : Ensures p (pure a) := h

theorem Ensures.not_panics {p : α → Prop} {x : Except Halt α} (h : Ensures p x) :
    x ≠ .error .panics := by
  intro hx
  rw [hx] at h
  exact h

theorem Ensures.of_ok {p : α → Prop} {x : Except Halt α} {a : α} (h : Ensures p x)
    (hx : x = .ok a) : p a := by
  rw [hx] at h
  exact h

theorem ensures_required (value : Option α) :
    Ensures (fun a => value = some a) (AnthropicStream.required value) := by
  cases value with
  | none => exact trivial
  | some a => exact rfl

theorem ensures_optionalStr (value : Value) (key : String) :
    Ensures (fun text => (text.getD "").utf8ByteSize ≤ value.bytesAt key) (value.optionalStr key) := by
  unfold Value.optionalStr
  split
  · exact Nat.zero_le _
  · exact Nat.zero_le _
  · next text hget =>
    change text.utf8ByteSize ≤ _
    rw [Value.bytesAt_of_get hget]
    exact Nat.le_refl _
  · exact trivial

theorem Ensures.foldlM {step : σ → α → Except Halt σ} (cost : α → Nat) {inv : Nat → σ → Prop}
    (items : List α)
    (hstep : ∀ n s, ∀ item ∈ items, inv n s → Ensures (inv (n + cost item)) (step s item))
    {n : Nat} {s : σ} (h : inv n s) :
    Ensures (inv (n + (items.map cost).sum)) (items.foldlM step s) := by
  induction items generalizing n s with
  | nil => exact h
  | cons item items ih =>
    rw [List.foldlM_cons]
    apply (hstep n s item List.mem_cons_self h).bind
    intro next hnext
    rw [List.map_cons, List.sum_cons, ← Nat.add_assoc]
    exact ih (fun n s item hitem => hstep n s item (List.mem_cons_of_mem _ hitem)) hnext

end Ensures

/-! ## The operations of a draft -/

def Pending.bytes : Pending → Nat
  | .delta _ _ text => text.utf8ByteSize
  | _ => 0

/-- What the state of a block of this kind can take: the configured bound of the arguments of a tool,
else `state`. -/
def ResponseLimits.blockBound (limits : ResponseLimits) (state : Nat) (kind : BlockKind) : Nat :=
  if kind = .toolCall then limits.maxToolArgBytes else state

namespace Draft

def pendingBytes (draft : Draft) : Nat := (draft.events.map Pending.bytes).sum

/-- The block `id` is there and has this kind. -/
def Has (draft : Draft) (id : BlockId) (kind : BlockKind) : Prop :=
  ∃ block, draft.blocks[id]? = some block ∧ block.kind = kind

structure Bounded (state : Nat) (draft : Draft) : Prop where
  count : draft.blocks.length ≤ draft.limits.maxBlocks
  bytes : ∀ block ∈ draft.blocks,
    block.bytes.utf8ByteSize ≤ draft.limits.blockBound state block.kind

/-- The draft goes on to `next`, and takes at most `text` bytes of deltas and `state` bytes of
state. -/
structure Spends (text state : Nat) (draft next : Draft) : Prop where
  limits : next.limits = draft.limits
  pending : next.pendingBytes ≤ draft.pendingBytes + text
  has : ∀ id kind, draft.Has id kind → next.Has id kind
  bounded : ∀ n, draft.Bounded n → next.Bounded (n + state)

section Operations

variable {draft next : Draft} {id : BlockId} {kind : BlockKind} {text state : Nat}

theorem blockBound_mono {limits : ResponseLimits} {n m : Nat} (h : n ≤ m) :
    limits.blockBound n kind ≤ limits.blockBound m kind := by
  unfold ResponseLimits.blockBound
  split
  · exact Nat.le_refl _
  · exact h

theorem Bounded.mono {n m : Nat} (hbounded : draft.Bounded n) (h : n ≤ m) : draft.Bounded m where
  count := hbounded.count
  bytes := fun block hblock => (hbounded.bytes block hblock).trans (blockBound_mono h)

theorem Spends.mono {text' state' : Nat} (h : draft.Spends text state next) (htext : text ≤ text')
    (hstate : state ≤ state') : draft.Spends text' state' next where
  limits := h.limits
  pending := h.pending.trans (Nat.add_le_add_left htext _)
  has := h.has
  bounded := fun n hn => (h.bounded n hn).mono (Nat.add_le_add_left hstate _)

theorem Spends.trans {last : Draft} {text' state' : Nat} (h : draft.Spends text state next)
    (h' : next.Spends text' state' last) : draft.Spends (text + text') (state + state') last where
  limits := h'.limits.trans h.limits
  pending := by
    have hfirst := h.pending
    have hsecond := h'.pending
    omega
  has := fun id kind hhas => h'.has id kind (h.has id kind hhas)
  bounded := by
    intro n hn
    rw [← Nat.add_assoc]
    exact h'.bounded _ (h.bounded n hn)

theorem spends_of_eq (hlimits : next.limits = draft.limits) (hblocks : next.blocks = draft.blocks)
    (hevents : next.events = draft.events) : draft.Spends 0 0 next where
  limits := hlimits
  pending := by rw [pendingBytes, hevents, pendingBytes, Nat.add_zero]
  has := by
    intro id kind hhas
    rw [Has, hblocks]
    exact hhas
  bounded := by
    intro n hn
    constructor
    · rw [hblocks, hlimits]
      exact hn.count
    · rw [hblocks, hlimits]
      exact hn.bytes

theorem spends_refl (draft : Draft) : draft.Spends 0 0 draft := spends_of_eq rfl rfl rfl

theorem spends_push (pending : Pending) : draft.Spends pending.bytes 0 (draft.push pending) where
  limits := rfl
  pending := by simp [pendingBytes, push]
  has := fun _ _ hhas => hhas
  bounded := fun _ hn => ⟨hn.count, hn.bytes⟩

theorem spends_setBlock {block : DraftBlock} (hfound : draft.blocks[id]? = some block)
    (block' : DraftBlock) (hkind : block'.kind = block.kind)
    (hbytes : ∀ n, block.bytes.utf8ByteSize ≤ draft.limits.blockBound n block.kind →
      block'.bytes.utf8ByteSize ≤ draft.limits.blockBound (n + state) block.kind) :
    draft.Spends 0 state (draft.setBlock id block') where
  limits := rfl
  pending := Nat.le_refl _
  has := by
    intro other kind hhas
    obtain ⟨found, hget, hfoundKind⟩ := hhas
    by_cases hother : id = other
    · subst hother
      obtain rfl : block = found := Option.some.inj (hfound.symm.trans hget)
      have hlt := (List.getElem?_eq_some_iff.mp hfound).1
      exact ⟨block', by rw [setBlock, List.getElem?_set_self hlt], hkind.trans hfoundKind⟩
    · exact ⟨found, by rw [setBlock, List.getElem?_set_ne hother]; exact hget, hfoundKind⟩
  bounded := by
    intro n hn
    constructor
    · rw [setBlock, List.length_set]
      exact hn.count
    · intro changed hchanged
      rcases List.mem_or_eq_of_mem_set hchanged with hold | rfl
      · exact (hn.bytes changed hold).trans (blockBound_mono (Nat.le_add_right _ _))
      · rw [hkind]
        exact hbytes n (hn.bytes block (List.mem_of_getElem? hfound))

theorem spends_relabel {block : DraftBlock} (hfound : draft.blocks[id]? = some block)
    (block' : DraftBlock) (hkind : block'.kind = block.kind) (hbytes : block'.bytes = block.bytes) :
    draft.Spends 0 0 (draft.setBlock id block') := by
  apply spends_setBlock hfound block' hkind
  intro n hn
  rw [hbytes]
  exact hn

theorem ensures_openBlock (h : draft.Has id kind) :
    Ensures (fun block => draft.blocks[id]? = some block ∧ block.kind = kind)
      (draft.openBlock id) := by
  obtain ⟨block, hfound, hkind⟩ := h
  have hopen : draft.openBlock id =
      if block.state = .open then .ok block else .error (.error .protocol) := by
    rw [openBlock, hfound]
  rw [hopen]
  split
  · exact ⟨hfound, hkind⟩
  · exact trivial

theorem ensures_start (draft : Draft) (kind : BlockKind) :
    Ensures (fun out => draft.Spends 0 0 out.2 ∧ out.2.Has out.1 kind) (draft.start kind) := by
  unfold start
  split
  · exact trivial
  · next hroom =>
    constructor
    · constructor
      · exact rfl
      · simp [pendingBytes, Pending.bytes]
      · intro id kind hhas
        obtain ⟨block, hget, hkind⟩ := hhas
        have hlt := (List.getElem?_eq_some_iff.mp hget).1
        exact ⟨block, by rw [List.getElem?_append_left hlt]; exact hget, hkind⟩
      · intro n hn
        constructor
        · simp only [List.length_append, List.length_singleton]
          omega
        · intro block hblock
          rcases List.mem_append.mp hblock with hold | hnew
          · exact hn.bytes block hold
          · rw [List.mem_singleton.mp hnew]
            exact Nat.zero_le _
    · exact ⟨{ kind := kind }, List.getElem?_concat_length, rfl⟩

theorem ensures_identify (h : draft.Has id kind) (callId name : String) :
    Ensures (draft.Spends 0 0) (draft.identify id callId name) := by
  apply (ensures_openBlock h).bind
  intro block hblock
  exact spends_relabel hblock.1 _ rfl rfl

theorem ensures_startTool (draft : Draft) (callId name : String) :
    Ensures (fun out => draft.Spends 0 0 out.2 ∧ out.2.Has out.1 .toolCall)
      (draft.startTool callId name) := by
  apply (ensures_start draft .toolCall).bind
  intro started hstarted
  apply (ensures_identify hstarted.2 callId name).bind
  intro named hnamed
  exact ⟨hstarted.1.trans hnamed, hnamed.has _ _ hstarted.2⟩

theorem ensures_delta (h : draft.Has id kind) (fragment : String) :
    Ensures (draft.Spends fragment.utf8ByteSize 0) (draft.delta id fragment) := by
  apply (ensures_openBlock h).bind
  intro block _
  exact spends_push (.delta id block.kind fragment)

theorem ensures_toolDelta (h : draft.Has id .toolCall) {n : Nat} (hbounded : draft.Bounded n)
    (fragment : String) :
    Ensures (draft.Spends fragment.utf8ByteSize 0) (draft.toolDelta id fragment) := by
  apply (ensures_openBlock h).bind
  intro block hblock
  obtain ⟨hfound, hkind⟩ := hblock
  have hle := hbounded.bytes block (List.mem_of_getElem? hfound)
  have hbound : ∀ n, draft.limits.blockBound n block.kind = draft.limits.maxToolArgBytes := by
    intro n
    rw [hkind]
    rfl
  rw [hbound] at hle
  rw [if_neg (Nat.not_lt.mpr hle)]
  split
  · exact trivial
  · have hset : draft.Spends 0 0
        (draft.setBlock id { block with bytes := block.bytes ++ fragment }) := by
      apply spends_setBlock hfound { block with bytes := block.bytes ++ fragment } rfl
      intro m _
      rw [hbound, String.utf8ByteSize_append]
      omega
    have hpush := hset.trans (spends_push (.delta id .toolCall fragment))
    exact hpush.mono (Nat.le_of_eq (Nat.zero_add _)) (Nat.le_refl _)

theorem ensures_finalArgs (h : draft.Has id .toolCall) (arguments : String) :
    Ensures (draft.Spends 0 0) (draft.finalArgs id arguments) := by
  apply (ensures_openBlock h).bind
  intro block hblock
  obtain ⟨hfound, hkind⟩ := hblock
  split
  · exact trivial
  · next hle =>
    apply ensures_pure
    apply spends_setBlock hfound { block with bytes := arguments } rfl
    intro n _
    rw [hkind]
    exact Nat.not_lt.mp hle

theorem ensures_pushBytes (h : draft.Has id kind) (hkind : kind ≠ .toolCall) (bytes : String) :
    Ensures (draft.Spends 0 bytes.utf8ByteSize) (draft.pushBytes id bytes) := by
  apply (ensures_openBlock h).bind
  intro block hblock
  obtain ⟨hfound, hfoundKind⟩ := hblock
  apply ensures_pure
  apply spends_setBlock hfound { block with bytes := block.bytes ++ bytes } rfl
  intro n hn
  rw [hfoundKind, ResponseLimits.blockBound, if_neg hkind] at hn ⊢
  rw [String.utf8ByteSize_append]
  exact Nat.add_le_add_right hn _

theorem ensures_setReplay (h : draft.Has id kind) (replay : ReplayKind) :
    Ensures (draft.Spends 0 0) (draft.setReplay id replay) := by
  apply (ensures_openBlock h).bind
  intro block hblock
  exact spends_relabel hblock.1 _ rfl rfl

theorem ensures_stop (h : draft.Has id kind) : Ensures (draft.Spends 0 0) (draft.stop id) := by
  apply (ensures_openBlock h).bind
  intro block hblock
  have hset : draft.Spends 0 0 (draft.setBlock id { block with state := .stopped }) :=
    spends_relabel hblock.1 _ rfl rfl
  exact hset.trans (spends_push (.stopped id))

theorem ensures_stopIfOpen (h : draft.Has id kind) :
    Ensures (draft.Spends 0 0) (draft.stopIfOpen id) := by
  obtain ⟨block, hfound, hkind⟩ := h
  unfold stopIfOpen
  rw [hfound]
  dsimp only
  split
  · exact ensures_stop ⟨block, hfound, hkind⟩
  · exact spends_refl draft

theorem ensures_dropBlock (h : draft.Has id kind) :
    Ensures (draft.Spends 0 0) (draft.dropBlock id) := by
  apply (ensures_openBlock h).bind
  intro block hblock
  exact spends_relabel hblock.1 _ rfl rfl

theorem ensures_closeBlock (openTools : OpenTools) (h : draft.Has id kind) :
    Ensures (draft.Spends 0 0) (closeBlock openTools draft id) := by
  obtain ⟨block, hfound, hkind⟩ := h
  unfold closeBlock
  rw [hfound]
  dsimp only
  split
  · exact spends_refl draft
  · split
    · exact ensures_dropBlock ⟨block, hfound, hkind⟩
    · exact ensures_stop ⟨block, hfound, hkind⟩

theorem spends_finish (draft : Draft) : draft.Spends 0 0 draft.finish where
  limits := rfl
  pending := by simp [pendingBytes, finish, Pending.bytes]
  has := fun _ _ hhas => hhas
  bounded := fun _ hn => ⟨hn.count, hn.bytes⟩

theorem ensures_closeAndFinish (draft : Draft) (openTools : OpenTools) :
    Ensures (fun out => draft.Spends 0 0 out ∧ out.done = true) (draft.closeAndFinish openTools) := by
  have hclosed : Ensures (fun out => draft.Spends 0 0 out)
      ((List.range' 0 draft.blocks.length).foldlM (closeBlock openTools) draft) := by
    apply Ensures.mono (@Ensures.foldlM _ _ _ (fun _ => 0) (fun _ out => draft.Spends 0 0 out) _ ?_ 0 _
      (spends_refl draft))
    · exact fun _ h => h
    · intro n closed id hid hspends
      obtain ⟨-, hlt⟩ := List.mem_range'_1.mp hid
      rw [Nat.zero_add] at hlt
      have hget : draft.blocks[id]? = some draft.blocks[id] := List.getElem?_eq_getElem hlt
      have hhas : closed.Has id draft.blocks[id].kind := hspends.has id _ ⟨_, hget, rfl⟩
      exact (ensures_closeBlock openTools hhas).mono fun out hout => hspends.trans hout
  apply hclosed.bind
  intro closed hspends
  exact ⟨hspends.trans (spends_finish closed), rfl⟩

end Operations

end Draft

/-! ## Anthropic Messages -/

namespace AnthropicStream

def DeltaView.bytes (delta : DeltaView) : Nat :=
  (delta.text.getD "").utf8ByteSize + (delta.thinking.getD "").utf8ByteSize +
    (delta.signature.getD "").utf8ByteSize + (delta.partialJson.getD "").utf8ByteSize

theorem ensures_deltaView (delta : Value) :
    Ensures (fun view => view.bytes ≤ delta.textBytes) (deltaView delta) := by
  apply (ensures_required _).bind
  intro kind _
  apply ensures_pure
  have hsum := @Value.sum_bytesAt delta ["text", "thinking", "signature", "partial_json"] (by decide)
  have htext := delta.getD_getStr_le "text"
  have hthinking := delta.getD_getStr_le "thinking"
  have hsignature := delta.getD_getStr_le "signature"
  have hjson := delta.getD_getStr_le "partial_json"
  simp only [List.map_cons, List.map_nil, List.sum_cons, List.sum_nil] at hsum
  unfold DeltaView.bytes
  dsimp only
  omega

namespace Reducer

variable {limits : ResponseLimits} {n m : Nat} {reducer : Reducer}

/-- The reducer keeps its bounds, and the state of its blocks takes at most `n` bytes. -/
structure Kept (limits : ResponseLimits) (n : Nat) (reducer : Reducer) : Prop where
  limits_eq : reducer.draft.limits = limits
  bounded : reducer.draft.Bounded n
  slots : reducer.slots.length ≤ limits.maxBlocks
  ids : ∀ id, some id ∈ reducer.slots → ∃ kind, reducer.draft.Has id kind

/-- The reducer goes on to `out` with at most `m` bytes of text. -/
structure Takes (limits : ResponseLimits) (n m : Nat) (reducer out : Reducer) : Prop where
  kept : out.Kept limits (n + m)
  pending : out.draft.pendingBytes ≤ reducer.draft.pendingBytes + m

theorem Kept.takes {out : Reducer} {text state : Nat} (h : reducer.Kept limits n)
    (hspends : reducer.draft.Spends text state out.draft) (hslots : out.slots = reducer.slots)
    (htext : text ≤ m) (hstate : state ≤ m) : Takes limits n m reducer out := by
  have hmost := hspends.mono htext hstate
  constructor
  · constructor
    · exact hmost.limits.trans h.limits_eq
    · exact hmost.bounded n h.bounded
    · rw [hslots]
      exact h.slots
    · intro id hid
      rw [hslots] at hid
      obtain ⟨kind, hhas⟩ := h.ids id hid
      exact ⟨kind, hmost.has id kind hhas⟩
  · exact hmost.pending

theorem Kept.takes_refl (h : reducer.Kept limits n) : Takes limits n m reducer reducer :=
  h.takes (Draft.spends_refl _) rfl (Nat.zero_le _) (Nat.zero_le _)

theorem ensures_deltaUnlessEmpty {draft : Draft} {id : BlockId} {kind : BlockKind}
    (h : draft.Has id kind) (text : Option String) :
    Ensures (draft.Spends (text.getD "").utf8ByteSize 0) (deltaUnlessEmpty draft id text) := by
  cases text with
  | none => exact draft.spends_refl
  | some text =>
    unfold deltaUnlessEmpty
    dsimp only
    split
    · exact draft.spends_refl.mono (Nat.zero_le _) (Nat.le_refl _)
    · exact Draft.ensures_delta h text

theorem ensures_startContent {draft : Draft} {id : BlockId} {kind : BlockKind}
    (h : draft.Has id kind) (blockType : String) (block : Value) :
    Ensures (draft.Spends block.textBytes block.textBytes)
      (startContent draft id kind blockType block) := by
  cases kind with
  | text =>
    apply (ensures_deltaUnlessEmpty h (block.getStr "text")).mono
    intro next hnext
    exact hnext.mono ((block.getD_getStr_le "text").trans (block.bytesAt_le _)) (Nat.zero_le _)
  | reasoning =>
    unfold startContent
    dsimp only
    split
    · apply (Draft.ensures_setReplay h .anthropicRedacted).bind
      intro named hnamed
      have hhas := hnamed.has _ _ h
      apply (Draft.ensures_pushBytes hhas (by decide) ((block.getStr "data").getD "")).mono
      intro next hnext
      have hdata := (block.getD_getStr_le "data").trans (block.bytesAt_le _)
      exact (hnamed.trans hnext).mono (Nat.zero_le _) (by omega)
    · apply (Draft.ensures_setReplay h .anthropicSignature).bind
      intro named hnamed
      have hhas := hnamed.has _ _ h
      apply (ensures_deltaUnlessEmpty hhas (block.getStr "thinking")).bind
      intro told htold
      have hhas' := htold.has _ _ hhas
      apply (Draft.ensures_pushBytes hhas' (by decide) ((block.getStr "signature").getD "")).mono
      intro next hnext
      have hthinking := (block.getD_getStr_le "thinking").trans (block.bytesAt_le _)
      have hsignature := (block.getD_getStr_le "signature").trans (block.bytesAt_le _)
      exact ((hnamed.trans htold).trans hnext).mono (by omega) (by omega)
  | toolCall => exact draft.spends_refl.mono (Nat.zero_le _) (Nat.zero_le _)
  | refusal => exact draft.spends_refl.mono (Nat.zero_le _) (Nat.zero_le _)

theorem ensures_startBlock (draft : Draft) (kind : BlockKind) (block : Value) :
    Ensures (fun out => draft.Spends 0 0 out.2 ∧ out.2.Has out.1 kind)
      (startBlock draft kind block) := by
  unfold startBlock
  split
  · next hkind =>
    subst hkind
    apply (ensures_required _).bind
    intro callId _
    apply (ensures_required _).bind
    intro name _
    exact Draft.ensures_startTool draft callId name
  · exact Draft.ensures_start draft kind

theorem textBytes_of_get {root member : Value} {key : String} (h : root.get key = some member) :
    member.textBytes ≤ root.textBytes := by
  rw [← Value.bytesAt_of_get h]
  exact root.bytesAt_le key

theorem ensures_onBlockStart (h : reducer.Kept limits n) (root : Value) :
    Ensures (Takes limits n root.textBytes reducer) (reducer.onBlockStart root) := by
  apply (ensures_required _).bind
  intro index _
  split
  · exact trivial
  split
  · exact trivial
  next hroom =>
    rw [h.limits_eq] at hroom
    apply (ensures_required _).bind
    intro block hblock
    apply (ensures_required _).bind
    intro blockType _
    have hslots : reducer.slots.length + 1 ≤ limits.maxBlocks := by omega
    split
    · have hsame := h.takes_refl (m := root.textBytes)
      constructor
      · constructor
        · exact h.limits_eq
        · exact hsame.kept.bounded
        · simpa using hslots
        · intro id hid
          exact h.ids id (by simpa using hid)
      · exact hsame.pending
    · next kind _ =>
      apply (ensures_startBlock reducer.draft kind block).bind
      intro started hstarted
      apply (ensures_startContent hstarted.2 blockType block).bind
      intro draft hdraft
      apply ensures_pure
      have hle := textBytes_of_get hblock
      have hspends : reducer.draft.Spends root.textBytes root.textBytes draft :=
        (hstarted.1.trans hdraft).mono (by omega) (by omega)
      constructor
      · constructor
        · exact hspends.limits.trans h.limits_eq
        · exact hspends.bounded n h.bounded
        · simpa using hslots
        · intro id hid
          rcases List.mem_append.mp hid with hold | hnew
          · obtain ⟨kind, hhas⟩ := h.ids id hold
            exact ⟨kind, hspends.has id kind hhas⟩
          · obtain rfl : id = started.1 := by simpa using hnew
            exact ⟨kind, hdraft.has _ _ hstarted.2⟩
      · exact hspends.pending

theorem ensures_deltaContent {draft : Draft} {id : BlockId} {delta : DeltaView}
    {expected : BlockKind} (hexpected : expectedKind delta.kind = some expected)
    (h : draft.Has id expected) (hbounded : draft.Bounded n) :
    Ensures (draft.Spends delta.bytes delta.bytes) (deltaContent draft id delta) := by
  have hle : ∀ text, delta.text = some text ∨ delta.thinking = some text ∨
      delta.signature = some text ∨ delta.partialJson = some text →
      text.utf8ByteSize ≤ delta.bytes := by
    intro text htext
    unfold DeltaView.bytes
    rcases htext with hsome | hsome | hsome | hsome
    · rw [hsome, Option.getD_some]
      omega
    · rw [hsome, Option.getD_some]
      omega
    · rw [hsome, Option.getD_some]
      omega
    · rw [hsome, Option.getD_some]
      omega
  unfold expectedKind at hexpected
  unfold deltaContent
  split
  · next htext =>
    apply (ensures_required _).bind
    intro text hsome
    apply (Draft.ensures_delta h text).mono
    intro next hnext
    exact hnext.mono (hle text (.inl hsome)) (Nat.zero_le _)
  · next htext =>
    rw [if_neg htext] at hexpected
    split
    · apply (ensures_required _).bind
      intro text hsome
      apply (Draft.ensures_delta h text).mono
      intro next hnext
      exact hnext.mono (hle text (.inr (.inl hsome))) (Nat.zero_le _)
    · next hthinking =>
      split
      · next hsignature =>
        rw [if_pos (.inr hsignature)] at hexpected
        cases hexpected
        apply (ensures_required _).bind
        intro text hsome
        apply (Draft.ensures_pushBytes h (by decide) text).mono
        intro next hnext
        exact hnext.mono (Nat.zero_le _) (hle text (.inr (.inr (.inl hsome))))
      · next hsignature =>
        have hneither : ¬ (delta.kind = "thinking_delta" ∨ delta.kind = "signature_delta") := by
          intro heither
          exact heither.elim hthinking hsignature
        rw [if_neg hneither] at hexpected
        split at hexpected
        · cases hexpected
          apply (ensures_required _).bind
          intro text hsome
          apply (Draft.ensures_toolDelta h hbounded text).mono
          intro next hnext
          exact hnext.mono (hle text (.inr (.inr (.inr hsome)))) (Nat.zero_le _)
        · cases hexpected

theorem ensures_applyView (h : reducer.Kept limits n) {id : BlockId} {block : DraftBlock}
    (hblock : reducer.draft.blocks[id]? = some block) (delta : DeltaView) :
    Ensures (Takes limits n delta.bytes reducer) (reducer.applyView id block delta) := by
  unfold applyView
  split
  · exact h.takes_refl
  · next expected hexpected =>
    split
    · exact trivial
    · next hfits =>
      have hkind : block.kind = expected := by
        by_contra hkind
        exact hfits (.inl hkind)
      apply (ensures_deltaContent hexpected ⟨block, hblock, hkind⟩ h.bounded).bind
      intro draft hdraft
      exact h.takes hdraft rfl (Nat.le_refl _) (Nat.le_refl _)

theorem ensures_applyDelta (h : reducer.Kept limits n) (index : Nat)
    {delta : Except Halt DeltaView} (hdelta : Ensures (fun view => view.bytes ≤ m) delta) :
    Ensures (Takes limits n m reducer) (reducer.applyDelta index delta) := by
  apply (ensures_required _).bind
  intro slot hslot
  cases slot with
  | none => exact h.takes_refl
  | some id =>
    obtain ⟨kind, hhas⟩ := h.ids id (List.mem_of_getElem? hslot)
    apply (Draft.ensures_openBlock hhas).bind
    intro block hblock
    apply hdelta.bind
    intro view hview
    apply (ensures_applyView h hblock.1 view).mono
    intro out hout
    constructor
    · exact { hout.kept with bounded := hout.kept.bounded.mono (Nat.add_le_add_left hview _) }
    · exact hout.pending.trans (Nat.add_le_add_left hview _)

theorem ensures_onBlockDelta (h : reducer.Kept limits n) (root : Value) :
    Ensures (Takes limits n root.textBytes reducer) (reducer.onBlockDelta root) := by
  apply (ensures_required _).bind
  intro index _
  apply ensures_applyDelta h
  apply (ensures_required _).bind
  intro delta hdelta
  apply (ensures_deltaView delta).mono
  intro view hview
  exact hview.trans (textBytes_of_get hdelta)

theorem ensures_onBlockStop (h : reducer.Kept limits n) (root : Value) :
    Ensures (Takes limits n root.textBytes reducer) (reducer.onBlockStop root) := by
  apply (ensures_required _).bind
  intro index _
  apply (ensures_required _).bind
  intro slot hslot
  cases slot with
  | none => exact h.takes_refl
  | some id =>
    obtain ⟨kind, hhas⟩ := h.ids id (List.mem_of_getElem? hslot)
    apply (Draft.ensures_stop hhas).bind
    intro draft hdraft
    exact h.takes hdraft rfl (Nat.zero_le _) (Nat.zero_le _)

theorem Kept.takes_beside {out : Reducer} (h : reducer.Kept limits n)
    (hlimits : out.draft.limits = reducer.draft.limits)
    (hblocks : out.draft.blocks = reducer.draft.blocks)
    (hevents : out.draft.events = reducer.draft.events) (hslots : out.slots = reducer.slots) :
    Takes limits n m reducer out :=
  h.takes (Draft.spends_of_eq hlimits hblocks hevents) hslots (Nat.zero_le _) (Nat.zero_le _)

theorem takes_onMessageStart (h : reducer.Kept limits n) (root : Value) :
    Takes limits n m reducer (reducer.onMessageStart root) := by
  unfold onMessageStart
  split
  · exact h.takes_beside rfl rfl rfl rfl
  · exact h.takes_refl

theorem takes_onMessageDelta (h : reducer.Kept limits n) (root : Value) :
    Takes limits n m reducer (reducer.onMessageDelta root) := by
  unfold onMessageDelta
  dsimp only
  split
  · split
    · exact h.takes_beside rfl rfl rfl rfl
    · exact h.takes_beside rfl rfl rfl rfl
  · split
    · exact h.takes_beside rfl rfl rfl rfl
    · exact h.takes_refl

theorem ensures_onMessageStop (h : reducer.Kept limits n) :
    Ensures (Takes limits n m reducer) reducer.onMessageStop := by
  unfold onMessageStop
  split
  · exact trivial
  · exact h.takes (Draft.spends_finish _) rfl (Nat.zero_le _) (Nat.zero_le _)

theorem ensures_decodeEvent (h : reducer.Kept limits n) (root : Value) :
    Ensures (fun out => Takes limits n root.textBytes reducer out.1) (reducer.decodeEvent root) := by
  apply (ensures_required _).bind
  intro event _
  split
  · exact h.takes_refl
  split
  · exact takes_onMessageStart h root
  split
  · exact (ensures_onBlockStart h root).bind fun out hout => hout
  split
  · exact (ensures_onBlockDelta h root).bind fun out hout => hout
  split
  · exact (ensures_onBlockStop h root).bind fun out hout => hout
  split
  · exact takes_onMessageDelta h root
  split
  · exact (ensures_onMessageStop h).bind fun out hout => hout
  · exact h.takes_refl

end Reducer

/-- No reader makes text out of nothing: a string of a document is at least as long as its value. -/
structure PayloadReader.Lawful (reader : PayloadReader) : Prop where
  blockDelta : ∀ data event, reader.blockDelta data = some event →
    event.delta.bytes ≤ data.utf8ByteSize
  parse : ∀ data root, reader.parse data = some root → root.textBytes ≤ data.utf8ByteSize

theorem Reducer.ensures_decode {limits : ResponseLimits} {n : Nat} {reader : PayloadReader}
    (hreader : reader.Lawful) {reducer : Reducer} (h : reducer.Kept limits n) (data : String) :
    Ensures (fun out => Takes limits n data.utf8ByteSize reducer out.1)
      (Reducer.decode reader reducer data) := by
  unfold Reducer.decode
  split
  · next event hevent =>
    have hsome : reader.blockDelta data = some event := by
      unfold typedDelta at hevent
      split at hevent
      · exact (Option.filter_eq_some_iff.mp hevent).1
      · cases hevent
    split
    · have hdelta : Ensures (fun view => view.bytes ≤ data.utf8ByteSize) (.ok event.delta) :=
        hreader.blockDelta data event hsome
      exact (ensures_applyDelta h event.index.toNat hdelta).bind fun out hout => hout
    · exact trivial
  · apply (ensures_required _).bind
    intro root hroot
    have hle := hreader.parse data root hroot
    apply (Reducer.ensures_decodeEvent h root).mono
    intro out hout
    constructor
    · exact { hout.kept with bounded := hout.kept.bounded.mono (Nat.add_le_add_left hle _) }
    · exact hout.pending.trans (Nat.add_le_add_left hle _)

end AnthropicStream

/-! ## OpenAI Chat Completions -/

namespace OpenaiChatStream

def Detail.bytes (detail : Detail) : Nat :=
  detail.body.utf8ByteSize + (detail.signature.getD "").utf8ByteSize +
    (detail.id.getD "").utf8ByteSize + (detail.format.getD "").utf8ByteSize

def detailBytes (details : List Detail) : Nat := (details.map Detail.bytes).sum

def Delta.bytes (delta : Delta) : Nat :=
  (delta.reasoningContent.getD "").utf8ByteSize + (delta.content.getD "").utf8ByteSize +
    (delta.refusal.getD "").utf8ByteSize +
    (((delta.toolCalls.join.bind WireCall.function).bind Function.arguments).getD "").utf8ByteSize

theorem keepFirst_bytes (slot value : Option String) :
    ((keepFirst slot value).getD "").utf8ByteSize ≤
      (slot.getD "").utf8ByteSize + (value.getD "").utf8ByteSize := by
  cases slot with
  | some kept => exact Nat.le_add_right _ _
  | none =>
    cases value with
    | none => exact Nat.zero_le _
    | some text =>
      unfold keepFirst
      dsimp only
      rw [Option.filter_some]
      split
      · exact Nat.le_add_left _ _
      · exact Nat.zero_le _

theorem join_bytes (detail : Detail) (entry : Value) :
    (detail.join entry).bytes ≤ detail.bytes + entry.textBytes := by
  have hbody := entry.getD_getStr_le detail.kind.field
  have hsignature := (keepFirst_bytes detail.signature (entry.getStr "signature")).trans
    (Nat.add_le_add_left (entry.getD_getStr_le "signature") _)
  have hid := (keepFirst_bytes detail.id (entry.getStr "id")).trans
    (Nat.add_le_add_left (entry.getD_getStr_le "id") _)
  have hformat := (keepFirst_bytes detail.format (entry.getStr "format")).trans
    (Nat.add_le_add_left (entry.getD_getStr_le "format") _)
  have hkeys : [detail.kind.field, "signature", "id", "format"].Nodup := by
    cases detail.kind <;> decide
  have hsum := entry.sum_bytesAt hkeys
  simp only [List.map_cons, List.map_nil, List.sum_cons, List.sum_nil] at hsum
  unfold Detail.bytes Detail.join
  dsimp only
  rw [String.utf8ByteSize_append]
  omega

theorem detailBytes_append (details more : List Detail) :
    detailBytes (details ++ more) = detailBytes details + detailBytes more := by
  rw [detailBytes, List.map_append, List.sum_append]
  rfl

/-- The entries keep their count, and hold at most `n` bytes. -/
structure DetailsKept (maxBlocks n : Nat) (details : List Detail) : Prop where
  count : details.length ≤ maxBlocks
  bytes : detailBytes details ≤ n

theorem ensures_onDetail {maxBlocks n : Nat} {details : List Detail}
    (h : DetailsKept maxBlocks n details) (entry : Value) :
    Ensures (DetailsKept maxBlocks (n + entry.textBytes)) (onDetail maxBlocks details entry) := by
  have hbytes := h.bytes
  unfold onDetail
  split
  · exact ⟨h.count, hbytes.trans (Nat.le_add_right _ _)⟩
  · next kind _ =>
    split
    · next last hlast =>
      obtain ⟨before, rfl⟩ := List.getLast?_eq_some_iff.mp (Option.filter_eq_some_iff.mp hlast).1
      have hjoin := join_bytes last entry
      have hcount := h.count
      rw [detailBytes_append] at hbytes
      constructor
      · simpa using hcount
      · rw [List.dropLast_concat, detailBytes_append]
        simp only [detailBytes, List.map_cons, List.map_nil, List.sum_cons, List.sum_nil] at hbytes ⊢
        omega
    · split
      · exact trivial
      · next hroom =>
        have hnew := join_bytes { kind := kind, index := entry.getInt "index" } entry
        constructor
        · simp only [List.length_append, List.length_singleton]
          omega
        · rw [detailBytes_append]
          have hempty : Detail.bytes { kind := kind, index := entry.getInt "index" } = 0 := rfl
          simp only [detailBytes, List.map_cons, List.map_nil, List.sum_cons, List.sum_nil] at hbytes ⊢
          change _ + ((Detail.join _ entry).bytes + 0) ≤ _
          omega

namespace Reducer

variable {limits : ResponseLimits} {state n m : Nat} {reducer : Reducer}

/-- The reducer keeps its bounds. The state of its blocks takes at most `state` bytes, and its entries
hold at most `n`. -/
structure Kept (limits : ResponseLimits) (state n : Nat) (reducer : Reducer) : Prop where
  limits_eq : reducer.draft.limits = limits
  bounded : reducer.draft.Bounded state
  channels : ∀ kind id, reducer.channels kind = some id → reducer.draft.Has id kind
  tools : ∀ tool ∈ reducer.tools, reducer.draft.Has tool.2 .toolCall
  details : DetailsKept limits.maxBlocks n reducer.details

/-- The reducer goes on to `out` with at most `m` bytes of text. No block takes state. -/
structure Takes (limits : ResponseLimits) (n m : Nat) (reducer out : Reducer) : Prop where
  kept : out.Kept limits 0 (n + m)
  pending : out.draft.pendingBytes ≤ reducer.draft.pendingBytes + m

theorem Kept.mono {state' n' : Nat} (h : reducer.Kept limits state n) (hstate : state ≤ state')
    (hn : n ≤ n') : reducer.Kept limits state' n' :=
  { h with
    bounded := h.bounded.mono hstate
    details := ⟨h.details.count, h.details.bytes.trans hn⟩ }

theorem Takes.mono {m' : Nat} {out : Reducer} (h : Takes limits n m reducer out) (hm : m ≤ m') :
    Takes limits n m' reducer out where
  kept := h.kept.mono (Nat.le_refl _) (Nat.add_le_add_left hm _)
  pending := h.pending.trans (Nat.add_le_add_left hm _)

theorem Takes.trans {m' : Nat} {middle out : Reducer} (h : Takes limits n m reducer middle)
    (h' : Takes limits (n + m) m' middle out) : Takes limits n (m + m') reducer out := by
  have hpending := h.pending
  have hpending' := h'.pending
  constructor
  · rw [← Nat.add_assoc]
    exact h'.kept
  · omega

theorem Kept.spend {draft : Draft} {text more : Nat} (h : reducer.Kept limits state n)
    (hspends : reducer.draft.Spends text more draft) :
    ({ reducer with draft := draft } : Reducer).Kept limits (state + more) n where
  limits_eq := hspends.limits.trans h.limits_eq
  bounded := hspends.bounded _ h.bounded
  channels := fun kind id hid => hspends.has _ _ (h.channels kind id hid)
  tools := fun tool htool => hspends.has _ _ (h.tools tool htool)
  details := h.details

theorem Kept.takes {draft : Draft} (h : reducer.Kept limits 0 n)
    (hspends : reducer.draft.Spends m 0 draft) :
    Takes limits n m reducer { reducer with draft := draft } where
  kept := (h.spend hspends).mono (Nat.le_refl _) (Nat.le_add_right _ _)
  pending := hspends.pending

theorem Kept.takes_refl (h : reducer.Kept limits 0 n) : Takes limits n m reducer reducer where
  kept := h.mono (Nat.le_refl _) (Nat.le_add_right _ _)
  pending := Nat.le_add_right _ _

theorem ensures_channel (h : reducer.Kept limits 0 n) (kind : BlockKind) :
    Ensures (fun out => Takes limits n 0 reducer out.2 ∧ out.2.draft.Has out.1 kind)
      (reducer.channel kind) := by
  unfold channel
  split
  · next id hid => exact ⟨h.takes_refl, h.channels kind id hid⟩
  · apply (Draft.ensures_start reducer.draft kind).bind
    intro started hstarted
    have hkept := h.spend hstarted.1
    refine ⟨⟨{ hkept with channels := ?_ }, hstarted.1.pending⟩, hstarted.2⟩
    intro other id hid
    dsimp only at hid
    by_cases hother : other = kind
    · subst hother
      rw [Function.update_self] at hid
      cases hid
      exact hstarted.2
    · rw [Function.update_of_ne hother] at hid
      exact hkept.channels other id hid

theorem ensures_appendDelta (h : reducer.Kept limits 0 n) (kind : BlockKind) (text : String) :
    Ensures (Takes limits n text.utf8ByteSize reducer) (appendDelta kind reducer text) := by
  unfold appendDelta
  split
  · exact h.takes_refl
  · apply (ensures_channel h kind).bind
    intro found hfound
    apply (Draft.ensures_delta hfound.2 text).bind
    intro draft hdraft
    apply ensures_pure
    exact (hfound.1.trans (hfound.1.kept.takes hdraft)).mono (Nat.le_of_eq (Nat.zero_add _))

theorem ensures_appendSome (h : reducer.Kept limits 0 n) (kind : BlockKind)
    (text : Option String) :
    Ensures (Takes limits n (text.getD "").utf8ByteSize reducer) (appendSome kind text reducer) := by
  cases text with
  | none => exact h.takes_refl
  | some text => exact ensures_appendDelta h kind text

theorem ensures_toolBlock (h : reducer.Kept limits 0 n) (index : Nat) :
    Ensures (fun out => Takes limits n 0 reducer out.2 ∧ out.2.draft.Has out.1 .toolCall)
      (reducer.toolBlock index) := by
  unfold toolBlock
  split
  · next other id hfound =>
    exact ⟨h.takes_refl, h.tools _ (List.mem_of_find?_eq_some hfound)⟩
  · apply (Draft.ensures_start reducer.draft .toolCall).bind
    intro started hstarted
    have hkept := h.spend hstarted.1
    refine ⟨⟨{ hkept with tools := ?_ }, hstarted.1.pending⟩, hstarted.2⟩
    intro tool htool
    rcases List.mem_append.mp htool with hold | hnew
    · exact hkept.tools tool hold
    · rw [List.mem_singleton.mp hnew]
      exact hstarted.2

theorem ensures_joinArguments {draft : Draft} {id : BlockId} (h : draft.Has id .toolCall)
    (hbounded : draft.Bounded state) (arguments : Option String) :
    Ensures (draft.Spends (arguments.getD "").utf8ByteSize 0) (joinArguments draft id arguments) := by
  cases arguments with
  | none => exact draft.spends_refl
  | some fragment => exact Draft.ensures_toolDelta h hbounded fragment

theorem ensures_onToolFragment (h : reducer.Kept limits 0 n) (index : Nat)
    (id name arguments : Option String) :
    Ensures (Takes limits n (arguments.getD "").utf8ByteSize reducer)
      (reducer.onToolFragment index id name arguments) := by
  apply (ensures_toolBlock h index).bind
  intro found hfound
  apply (Draft.ensures_identify hfound.2 (id.getD "") (name.getD "")).bind
  intro named hnamed
  have hhas := hnamed.has _ _ hfound.2
  have hbounded := hnamed.bounded _ hfound.1.kept.bounded
  apply (ensures_joinArguments hhas hbounded arguments).bind
  intro draft hdraft
  apply ensures_pure
  have hboth := (hnamed.trans hdraft).mono (Nat.le_of_eq (Nat.zero_add _)) (Nat.le_refl _)
  exact (hfound.1.trans (hfound.1.kept.takes hboth)).mono (Nat.le_of_eq (Nat.zero_add _))

theorem ensures_onToolCall (h : reducer.Kept limits 0 n) (call : Value) :
    Ensures (Takes limits n call.textBytes reducer) (reducer.onToolCall call) := by
  apply (ensures_required _).bind
  intro index _
  split
  · exact h.takes_refl
  · next function hfunction =>
    split
    · exact trivial
    · apply (ensures_optionalStr function "arguments").bind
      intro arguments harguments
      apply (ensures_optionalStr call "id").bind
      intro id _
      apply (ensures_optionalStr function "name").bind
      intro name _
      apply (ensures_onToolFragment h index id name arguments).mono
      intro out hout
      have hfunctionBytes := Value.bytesAt_of_get hfunction
      have hcall := call.bytesAt_le "function"
      have hmember := function.bytesAt_le "arguments"
      exact hout.mono (by omega)

theorem ensures_onDetails (h : reducer.Kept limits 0 n) (entries : List Value) :
    Ensures (Takes limits n (entries.map Value.textBytes).sum reducer)
      (reducer.onDetails entries) := by
  apply (ensures_channel h .reasoning).bind
  intro found hfound
  have hloop : Ensures (DetailsKept limits.maxBlocks (n + 0 + (entries.map Value.textBytes).sum))
      (entries.foldlM (onDetail limits.maxBlocks) found.2.details) := by
    apply Ensures.foldlM Value.textBytes entries
    · intro k details entry _ hdetails
      exact ensures_onDetail hdetails entry
    · exact hfound.1.kept.details
  rw [h.limits_eq]
  apply hloop.bind
  intro details hdetails
  apply ensures_pure
  constructor
  · exact { hfound.1.kept with details := hdetails }
  · exact hfound.1.pending.trans (Nat.add_le_add_left (Nat.zero_le _) _)

theorem ensures_withArray {delta : Value} {key : String}
    {step : Reducer → List Value → Except Halt Reducer} (h : reducer.Kept limits 0 n)
    (hstep : ∀ items, Ensures (Takes limits n (items.map Value.textBytes).sum reducer)
      (step reducer items)) :
    Ensures (Takes limits n (delta.bytesAt key) reducer) (reducer.withArray delta key step) := by
  unfold withArray
  split
  · next items hitems =>
    rw [← Value.getArray_bytes hitems]
    exact hstep items
  · exact h.takes_refl

theorem ensures_onToolCalls (h : reducer.Kept limits 0 n) (calls : List Value) :
    Ensures (Takes limits n (calls.map Value.textBytes).sum reducer)
      (calls.foldlM onToolCall reducer) := by
  have hloop := @Ensures.foldlM _ _ onToolCall Value.textBytes
    (fun m out => Takes limits n m reducer out) calls ?_ 0 reducer h.takes_refl
  · rw [Nat.zero_add] at hloop
    exact hloop
  · intro m out call _ hout
    apply (ensures_onToolCall hout.kept call).mono
    intro next hnext
    exact hout.trans hnext

theorem ensures_onDelta (h : reducer.Kept limits 0 n) (delta : Value) :
    Ensures (Takes limits n delta.textBytes reducer) (reducer.onDelta delta) := by
  apply (ensures_appendSome h .reasoning
    ((delta.getStr "reasoning_content").or (delta.getStr "reasoning"))).bind
  intro first hfirst
  apply (@ensures_withArray _ _ _ delta "reasoning_details" _ hfirst.kept
    fun items => ensures_onDetails hfirst.kept items).bind
  intro second hsecond
  have htook := hfirst.trans hsecond
  apply (ensures_appendSome htook.kept .text (delta.getStr "content")).bind
  intro third hthird
  have htook' := htook.trans hthird
  apply (ensures_appendSome htook'.kept .refusal (delta.getStr "refusal")).bind
  intro fourth hfourth
  have htook'' := htook'.trans hfourth
  apply (@ensures_withArray _ _ _ delta "tool_calls" _ htook''.kept
    fun calls => ensures_onToolCalls htook''.kept calls).mono
  intro out hout
  have hsum := @Value.sum_bytesAt delta
    ["reasoning_content", "reasoning", "reasoning_details", "content", "refusal", "tool_calls"]
    (by decide)
  have hthinking : (((delta.getStr "reasoning_content").or
      (delta.getStr "reasoning")).getD "").utf8ByteSize ≤
      delta.bytesAt "reasoning_content" + delta.bytesAt "reasoning" := by
    have hcontent := delta.getD_getStr_le "reasoning_content"
    have hother := delta.getD_getStr_le "reasoning"
    cases hget : delta.getStr "reasoning_content" with
    | none =>
      rw [Option.none_or]
      omega
    | some text =>
      rw [hget] at hcontent
      rw [Option.some_or]
      omega
  have hcontent := delta.getD_getStr_le "content"
  have hrefusal := delta.getD_getStr_le "refusal"
  simp only [List.map_cons, List.map_nil, List.sum_cons, List.sum_nil] at hsum
  exact (htook''.trans hout).mono (by omega)

theorem takes_onFinish (h : reducer.Kept limits 0 n) (raw : Option String) :
    Takes limits n 0 reducer (reducer.onFinish raw).1 := by
  unfold onFinish
  split
  · exact h.takes_refl
  · split
    · exact h.takes_refl
    · exact h.takes (Draft.spends_of_eq rfl rfl rfl)

theorem ensures_withDelta {α : Type} {delta : Option α} {step : Reducer → α → Except Halt Reducer}
    (h : reducer.Kept limits 0 n)
    (hstep : ∀ found, delta = some found → Ensures (Takes limits n m reducer) (step reducer found)) :
    Ensures (Takes limits n m reducer) (reducer.withDelta delta step) := by
  cases delta with
  | none => exact h.takes_refl
  | some found => exact hstep found rfl

theorem ensures_onChoice (h : reducer.Kept limits 0 n) (choice : Value) :
    Ensures (fun out => Takes limits n choice.textBytes reducer out.1) (reducer.onChoice choice) := by
  have hdelta : Ensures (Takes limits n choice.textBytes reducer)
      (reducer.withDelta (choice.getObject "delta") onDelta) := by
    apply ensures_withDelta h
    intro delta hdelta
    apply (ensures_onDelta h delta).mono
    intro out hout
    exact hout.mono (AnthropicStream.Reducer.textBytes_of_get (Option.filter_eq_some_iff.mp hdelta).1)
  apply hdelta.bind
  intro out hout
  exact hout.trans (takes_onFinish hout.kept _)

theorem ensures_onTypedDelta (h : reducer.Kept limits 0 n) (delta : Delta) :
    Ensures (Takes limits n delta.bytes reducer) (reducer.onTypedDelta delta) := by
  apply (ensures_appendSome h .reasoning delta.reasoningContent).bind
  intro first hfirst
  apply (ensures_appendSome hfirst.kept .text delta.content).bind
  intro second hsecond
  have htook := hfirst.trans hsecond
  apply (ensures_appendSome htook.kept .refusal delta.refusal).bind
  intro third hthird
  have htook' := htook.trans hthird
  unfold onTypedCall Delta.bytes
  cases hcall : delta.toolCalls.join with
  | none => exact htook'.mono (Nat.le_add_right _ _)
  | some call =>
    dsimp only
    cases hfunction : call.function with
    | none => exact htook'.mono (Nat.le_add_right _ _)
    | some function =>
      dsimp only
      split
      · apply (ensures_onToolFragment htook'.kept call.index.toNat call.id function.name
          function.arguments).mono
        intro out hout
        rw [Option.bind_some, hfunction]
        exact htook'.trans hout
      · exact trivial

theorem ensures_onChunk (h : reducer.Kept limits 0 n) {chunk : Chunk}
    (hchunk : ∀ delta, chunk.choice.bind Choice.delta = some delta → delta.bytes ≤ m) :
    Ensures (fun out => Takes limits n m reducer out.1) (reducer.onChunk chunk) := by
  unfold onChunk
  split
  · exact h.takes_refl
  · next choice hchoice =>
    have hdelta : Ensures (Takes limits n m reducer)
        (reducer.withDelta choice.delta onTypedDelta) := by
      apply ensures_withDelta h
      intro delta hdelta
      apply (ensures_onTypedDelta h delta).mono
      intro out hout
      exact hout.mono (hchunk delta (by rw [hchoice, Option.bind_some, hdelta]))
    apply hdelta.bind
    intro out hout
    exact hout.trans (takes_onFinish hout.kept _)

theorem takes_readUsage (h : reducer.Kept limits 0 n) (root : Value) :
    Takes limits n 0 reducer (reducer.readUsage root) := by
  unfold readUsage
  split
  · exact h.takes_refl
  · exact h.takes (Draft.spends_of_eq rfl rfl rfl)

theorem ensures_decodeRoot (h : reducer.Kept limits 0 n) (root : Value) :
    Ensures (fun out => Takes limits n root.textBytes reducer out.1) (reducer.decodeRoot root) := by
  unfold decodeRoot
  split
  · exact (takes_readUsage h root).mono (Nat.zero_le _)
  · next choice hchoice =>
    obtain ⟨choices, hchoices, hhead⟩ := Option.bind_eq_some_iff.mp hchoice
    have hle : choice.textBytes ≤ root.textBytes := by
      have hmember := List.single_le_sum (fun _ _ => Nat.zero_le _) _
        (List.mem_map_of_mem (f := Value.textBytes) (List.mem_of_head? hhead))
      rw [Value.getArray_bytes hchoices] at hmember
      exact hmember.trans (root.bytesAt_le _)
    apply (ensures_onChoice h choice).bind
    intro read hread
    split
    · exact hread.mono hle
    · exact (hread.trans (takes_readUsage hread.kept root)).mono hle

theorem ensures_storeDetails (h : reducer.Kept limits 0 n) :
    Ensures (fun out => out.Kept limits limits.maxEventBytes n ∧
      out.draft.pendingBytes = reducer.draft.pendingBytes) reducer.storeDetails := by
  unfold storeDetails
  split
  · exact ⟨h.mono (Nat.zero_le _) (Nat.le_refl _), rfl⟩
  · apply (ensures_required _).bind
    intro id hid
    apply (Draft.ensures_openBlock (h.channels .reasoning id hid)).bind
    intro block hblock
    obtain ⟨hfound, hkind⟩ := hblock
    dsimp only
    split
    · exact trivial
    · next hle =>
      rw [h.limits_eq] at hle
      have hspends : reducer.draft.Spends 0 limits.maxEventBytes (reducer.draft.setBlock id
          { block with
            replay := some .openrouterDetails
            bytes := block.bytes ++ detailsText reducer.details }) := by
        apply Draft.spends_setBlock hfound { block with
          replay := some .openrouterDetails
          bytes := block.bytes ++ detailsText reducer.details } rfl
        intro m _
        rw [hkind, ResponseLimits.blockBound, if_neg (by decide)]
        exact (Nat.not_lt.mp hle).trans (Nat.le_add_left _ _)
      have hkept := h.spend hspends
      rw [Nat.zero_add] at hkept
      exact ⟨hkept, rfl⟩

theorem ensures_onDone (h : reducer.Kept limits 0 n) :
    Ensures (fun out => out.Kept limits limits.maxEventBytes n ∧
      out.draft.pendingBytes ≤ reducer.draft.pendingBytes ∧ out.draft.done = true)
      reducer.onDone := by
  apply (ensures_storeDetails h).bind
  intro stored hstored
  apply (Draft.ensures_closeAndFinish stored.draft .keep).bind
  intro draft hdraft
  have hpending := hdraft.1.pending
  rw [hstored.2, Nat.add_zero] at hpending
  exact ⟨hstored.1.spend hdraft.1, hpending, hdraft.2⟩

end Reducer

/-- No reader makes text out of nothing: a string of a document is at least as long as its value. -/
structure PayloadReader.Lawful (reader : PayloadReader) : Prop where
  chunk : ∀ data chunk delta, reader.chunk data = some chunk →
    chunk.choice.bind Choice.delta = some delta → delta.bytes ≤ data.utf8ByteSize
  parse : ∀ data root, reader.parse data = some root → root.textBytes ≤ data.utf8ByteSize

structure Decoded (limits : ResponseLimits) (n m : Nat) (reducer out : Reducer) : Prop where
  kept : out.Kept limits limits.maxEventBytes (n + m)
  going : out.draft.done = false → out.Kept limits 0 (n + m)
  pending : out.draft.pendingBytes ≤ reducer.draft.pendingBytes + m

theorem Reducer.Takes.decoded {limits : ResponseLimits} {n m m' : Nat} {reducer out : Reducer}
    (h : Reducer.Takes limits n m reducer out) (hm : m ≤ m') : Decoded limits n m' reducer out := by
  have hmore := h.mono hm
  constructor
  · exact hmore.kept.mono (Nat.zero_le _) (Nat.le_refl _)
  · exact fun _ => hmore.kept
  · exact hmore.pending

theorem Reducer.ensures_decode {limits : ResponseLimits} {n : Nat} {reader : PayloadReader}
    (hreader : reader.Lawful) {reducer : Reducer} (h : reducer.Kept limits 0 n) (data : String) :
    Ensures (fun out => Decoded limits n data.utf8ByteSize reducer out.1)
      (Reducer.decode reader reducer data) := by
  unfold Reducer.decode
  split
  · apply (Reducer.ensures_onDone h).bind
    intro out hout
    obtain ⟨hkept, hpending, hdone⟩ := hout
    constructor
    · exact hkept.mono (Nat.le_refl _) (Nat.le_add_right _ _)
    · intro hgoing
      rw [hdone] at hgoing
      cases hgoing
    · exact hpending.trans (Nat.le_add_right _ _)
  · split
    · next chunk hchunk =>
      have hsome : reader.chunk data = some chunk := by
        unfold typedChunk at hchunk
        split at hchunk
        · exact (Option.filter_eq_some_iff.mp hchunk).1
        · cases hchunk
      apply (Reducer.ensures_onChunk h fun delta => hreader.chunk data chunk delta hsome).mono
      exact fun out hout => hout.decoded (Nat.le_refl _)
    · apply (ensures_required _).bind
      intro root hroot
      split
      · exact h.takes_refl.decoded (Nat.zero_le _)
      · apply (Reducer.ensures_decodeRoot h root).mono
        exact fun out hout => hout.decoded (hreader.parse data root hroot)

end OpenaiChatStream

end Yuke.Ai
