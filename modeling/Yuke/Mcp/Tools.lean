import Yuke.Ai.Request
import Yuke.Mcp.Servers

/-!
# The names of the MCP tools

Each tool of a running server gets the name `mcp__<server>__<tool>`, in the characters and the
length that providers accept. A long name is cut and ends in a hash, and so does a name that an
earlier tool has.
-/

set_option autoImplicit false

namespace Yuke.Mcp

open Yuke.Ai

def toolNameMax : Nat := 64

def toolNameCharacter (character : Char) : Bool :=
  character.isAlphanum || character = '_' || character = '-'

/-- `mcp__<server>__<tool>`, with `_` for each character that a provider refuses. -/
def sanitized (server tool : String) : String :=
  String.ofList (("mcp__" ++ server ++ "__" ++ tool).toList.map fun character =>
    if toolNameCharacter character then character else '_')

/-- The 8 hex digits of a number of 32 bits. -/
def hexDigits (hash : UInt32) : List Char :=
  (List.range 8).reverse.map fun place => (hash.toNat / 16 ^ place % 16).digitChar

/-- The 32-bit FNV-1a hash of `server`, a NUL byte, and `tool`. -/
def fnv1a (server tool : String) : UInt32 :=
  (server.toUTF8.toList ++ [0] ++ tool.toUTF8.toList).foldl
    (fun (hash : UInt32) (byte : UInt8) => (hash ^^^ byte.toUInt32) * 0x01000193) 0x811c9dc5

section Names

variable (hash : String → String → UInt32)

def hashedName (server tool : String) : String :=
  let name := sanitized server tool
  String.ofList (name.toList.take (min name.utf8ByteSize (toolNameMax - 9)) ++ '_' ::
    hexDigits (hash server tool))

def toolName (server tool : String) : String :=
  let name := sanitized server tool
  if name.utf8ByteSize ≤ toolNameMax then name else hashedName hash server tool

end Names

structure ToolAnnotations where
  title : Option String
  deriving DecidableEq

/-- A tool that a server lists. `inputSchema` is the text of its schema. -/
structure ToolInfo where
  name : String
  description : Option String
  inputSchema : String
  title : Option String
  annotations : Option ToolAnnotations
  deriving DecidableEq

/-- A tool of a session. A call goes to `peer` with the raw name. -/
structure McpTool (Peer : Type) where
  peer : Peer
  name : String
  title : Option String
  deriving DecidableEq

def deferred (definition : ToolDefinition) : ToolDefinition :=
  { definition with deferLoading := true }

/-- The tool `info` under the name `name`. -/
def ToolInfo.entry {Peer : Type} (info : ToolInfo) (peer : Peer) (name : String) :
    ToolDefinition × McpTool Peer :=
  (deferred
    { name := name
      description := info.description.getD ""
      inputSchema := info.inputSchema
      deferLoading := false },
   { peer := peer
     name := info.name
     title := info.title <|> info.annotations.bind ToolAnnotations.title })

section Tools

variable {Peer : Type} (hash : String → String → UInt32)

/-- Add the tool `info` of a server, unless both of its names are taken. -/
def addTool (server : String) (peer : Peer)
    (taken : List String × List (ToolDefinition × McpTool Peer)) (info : ToolInfo) :
    List String × List (ToolDefinition × McpTool Peer) :=
  let plain := toolName hash server info.name
  let name := if plain ∈ taken.1 then hashedName hash server info.name else plain
  if name ∈ taken.1 then taken
  else (name :: taken.1, taken.2 ++ [info.entry peer name])

def Servers.tools (s : Servers Peer ToolInfo) : List (ToolDefinition × McpTool Peer) :=
  (s.slots.foldl (fun taken slot =>
    match slot.peer with
    | none => taken
    | some peer => slot.tools.foldl (addTool hash slot.name peer) taken) ([], [])).2

end Tools

def Accepted (name : String) : Prop :=
  1 ≤ name.length ∧ name.length ≤ toolNameMax ∧ ∀ c ∈ name.toList, toolNameCharacter c = true

theorem toolNameCharacter_digitChar {n : Nat} (h : n < 16) :
    toolNameCharacter n.digitChar = true := by
  interval_cases n <;> decide

theorem length_hexDigits (hash : UInt32) : (hexDigits hash).length = 8 := by
  rw [hexDigits, List.length_map, List.length_reverse, List.length_range]

theorem hexDigits_accepted (hash : UInt32) : ∀ c ∈ hexDigits hash, toolNameCharacter c = true := by
  intro c hc
  obtain ⟨place, _, rfl⟩ := List.mem_map.mp hc
  exact toolNameCharacter_digitChar (Nat.mod_lt _ (by decide))

theorem sanitized_accepted (server tool : String) :
    ∀ c ∈ (sanitized server tool).toList, toolNameCharacter c = true := by
  intro c hc
  rw [sanitized, String.toList_ofList] at hc
  obtain ⟨character, _, rfl⟩ := List.mem_map.mp hc
  split
  · assumption
  · decide

theorem utf8Size_toolNameCharacter {c : Char} (h : toolNameCharacter c = true) :
    c.utf8Size = 1 := by
  rw [Char.utf8Size_eq_one_iff]
  simp only [toolNameCharacter, Char.isAlphanum, Char.isAlpha, Char.isUpper, Char.isLower,
    Char.isDigit, Bool.or_eq_true, Bool.and_eq_true, decide_eq_true_eq] at h
  rcases h with ((((⟨_, h⟩ | ⟨_, h⟩) | ⟨_, h⟩) | rfl) | rfl)
  · exact UInt32.le_trans h (by decide)
  · exact UInt32.le_trans h (by decide)
  · exact UInt32.le_trans h (by decide)
  · decide
  · decide

theorem utf8ByteSize_sanitized (server tool : String) :
    (sanitized server tool).utf8ByteSize = (sanitized server tool).length := by
  have hsize : ∀ letters : List Char, (∀ c ∈ letters, toolNameCharacter c = true) →
      String.utf8Len letters = letters.length := by
    intro letters hletters
    induction letters with
    | nil => rfl
    | cons c letters ih =>
      rw [String.utf8Len_cons, ih fun d hd => hletters d (.tail _ hd),
        utf8Size_toolNameCharacter (hletters c List.mem_cons_self), List.length_cons]
  have h := hsize _ (sanitized_accepted server tool)
  rw [← String.utf8ByteSize_ofList, String.ofList_toList] at h
  rw [h, String.length_toList]

theorem length_sanitized (server tool : String) : 7 ≤ (sanitized server tool).length := by
  rw [sanitized, String.length_ofList, List.length_map]
  simp only [String.toList_append, List.length_append]
  have hstart : "mcp__".toList.length = 5 := by decide
  have hmiddle : "__".toList.length = 2 := by decide
  omega

section Accept

variable (hash : String → String → UInt32) (server tool : String)

theorem hashedName_accepted : Accepted (hashedName hash server tool) := by
  unfold Accepted hashedName
  rw [String.length_ofList, String.toList_ofList, List.length_append, List.length_take,
    List.length_cons, length_hexDigits]
  refine ⟨by omega, ?_, ?_⟩
  · unfold toolNameMax
    omega
  · intro c hc
    rcases List.mem_append.mp hc with hc | hc
    · exact sanitized_accepted server tool c (List.mem_of_mem_take hc)
    · rcases List.mem_cons.mp hc with rfl | hc
      · decide
      · exact hexDigits_accepted _ c hc

theorem toolName_accepted : Accepted (toolName hash server tool) := by
  rw [toolName]
  split
  · next hshort =>
    rw [utf8ByteSize_sanitized] at hshort
    have hlength := length_sanitized server tool
    exact ⟨by omega, hshort, sanitized_accepted server tool⟩
  · exact hashedName_accepted hash server tool

end Accept

example : toolName fnv1a "my server" "read.file" = "mcp__my_server__read_file" := by
  decide +kernel

/-! ## The names of a session -/

structure Offer (Peer : Type) where
  server : String
  peer : Peer
  info : ToolInfo

def Servers.offers {Peer : Type} (s : Servers Peer ToolInfo) : List (Offer Peer) :=
  s.slots.flatMap fun slot =>
    match slot.peer with
    | none => []
    | some peer => slot.tools.map fun info => ⟨slot.name, peer, info⟩

/-- The names of the tools that `offers` gives: each one its plain name, or its hashed name where an
earlier tool has the plain one. A tool is left out where earlier tools have both. -/
structure Named {Peer : Type} (hash : String → String → UInt32) (offers : List (Offer Peer))
    (names : List (Option String)) : Prop where
  length : names.length = offers.length
  given : ∀ i offer name, offers[i]? = some offer → names[i]? = some (some name) →
    name = toolName hash offer.server offer.info.name ∨
      name = hashedName hash offer.server offer.info.name ∧
        toolName hash offer.server offer.info.name ∈ (names.take i).reduceOption
  left_out : ∀ i offer, offers[i]? = some offer → names[i]? = some none →
    toolName hash offer.server offer.info.name ∈ (names.take i).reduceOption ∧
      hashedName hash offer.server offer.info.name ∈ (names.take i).reduceOption

def entriesOf {Peer : Type} (offers : List (Offer Peer)) (names : List (Option String)) :
    List (ToolDefinition × McpTool Peer) :=
  (offers.zip names).filterMap fun offered =>
    offered.2.map fun name => offered.1.info.entry offered.1.peer name

section Session

variable {Peer : Type} {hash : String → String → UInt32}

theorem Named.concat {offers : List (Offer Peer)} {names : List (Option String)}
    (h : Named hash offers names) {offer : Offer Peer} {name : Option String}
    (hgiven : ∀ given, name = some given →
      given = toolName hash offer.server offer.info.name ∨
        given = hashedName hash offer.server offer.info.name ∧
          toolName hash offer.server offer.info.name ∈ names.reduceOption)
    (hleft : name = none → toolName hash offer.server offer.info.name ∈ names.reduceOption ∧
      hashedName hash offer.server offer.info.name ∈ names.reduceOption) :
    Named hash (offers ++ [offer]) (names ++ [name]) := by
  have hlength := h.length
  have hcases : ∀ i other, (offers ++ [offer])[i]? = some other →
      i < offers.length ∧ offers[i]? = some other ∨ i = names.length ∧ other = offer := by
    intro i other hother
    rcases Nat.lt_trichotomy i offers.length with hi | hi | hi
    · rw [List.getElem?_append_left hi] at hother
      exact .inl ⟨hi, hother⟩
    · subst hi
      rw [List.getElem?_concat_length, Option.some.injEq] at hother
      exact .inr ⟨hlength.symm, hother.symm⟩
    · rw [List.getElem?_eq_none (by simp; omega)] at hother
      cases hother
  constructor
  · rw [List.length_append, List.length_append, hlength]
    rfl
  · intro i other given hother hname
    rcases hcases i other hother with ⟨hi, hother⟩ | ⟨rfl, rfl⟩
    · rw [List.getElem?_append_left (by omega)] at hname
      rw [List.take_append_of_le_length (by omega)]
      exact h.given i other given hother hname
    · rw [List.getElem?_concat_length, Option.some.injEq] at hname
      rw [List.take_left]
      exact hgiven given hname
  · intro i other hother hname
    rcases hcases i other hother with ⟨hi, hother⟩ | ⟨rfl, rfl⟩
    · rw [List.getElem?_append_left (by omega)] at hname
      rw [List.take_append_of_le_length (by omega)]
      exact h.left_out i other hother hname
    · rw [List.getElem?_concat_length, Option.some.injEq] at hname
      rw [List.take_left]
      exact hleft hname

theorem entriesOf_concat {offers : List (Offer Peer)} {names : List (Option String)}
    (hlength : names.length = offers.length) (offer : Offer Peer) (name : Option String) :
    entriesOf (offers ++ [offer]) (names ++ [name]) =
      entriesOf offers names ++ (name.map (offer.info.entry offer.peer)).toList := by
  rw [entriesOf, List.zip_append hlength.symm, List.filterMap_append, ← entriesOf]
  cases name with
  | none => rfl
  | some name => rfl

/-- The loop took the names `taken.1` for the tools `taken.2` of `offers`. -/
structure Taken (hash : String → String → UInt32) (offers : List (Offer Peer))
    (taken : List String × List (ToolDefinition × McpTool Peer)) : Prop where
  names : ∃ names, Named hash offers names ∧ taken.2 = entriesOf offers names ∧
    names.reduceOption = taken.2.map fun tool => tool.1.name
  mem : ∀ name, name ∈ taken.1 ↔ name ∈ taken.2.map fun tool => tool.1.name
  nodup : (taken.2.map fun tool => tool.1.name).Nodup
  accepted : ∀ tool ∈ taken.2, Accepted tool.1.name

theorem reduceOption_concat (names : List (Option String)) (name : Option String) :
    (names ++ [name]).reduceOption = names.reduceOption ++ name.toList := by
  rw [List.reduceOption_append]
  cases name with
  | none => rfl
  | some name => rfl

theorem Taken.concat {offers : List (Offer Peer)}
    {taken : List String × List (ToolDefinition × McpTool Peer)} (h : Taken hash offers taken)
    {offer : Offer Peer} {name : String} (hfresh : name ∉ taken.1) (haccepted : Accepted name)
    (hgiven : name = toolName hash offer.server offer.info.name ∨
      name = hashedName hash offer.server offer.info.name ∧
        toolName hash offer.server offer.info.name ∈ taken.1) :
    Taken hash (offers ++ [offer])
      (name :: taken.1, taken.2 ++ [offer.info.entry offer.peer name]) := by
  obtain ⟨names, hnamed, htools, hreduce⟩ := h.names
  have hnames : (taken.2 ++ [offer.info.entry offer.peer name]).map (fun tool => tool.1.name) =
      taken.2.map (fun tool => tool.1.name) ++ [name] := by
    rw [List.map_append]
    rfl
  constructor
  · refine ⟨names ++ [some name], ?_, ?_, ?_⟩
    · apply hnamed.concat
      · intro given hname
        cases hname
        rcases hgiven with hgiven | ⟨hgiven, htaken⟩
        · exact .inl hgiven
        · rw [h.mem, ← hreduce] at htaken
          exact .inr ⟨hgiven, htaken⟩
      · intro hname
        cases hname
    · rw [entriesOf_concat hnamed.length, htools]
      rfl
    · rw [reduceOption_concat, hreduce, hnames]
      rfl
  · intro other
    rw [hnames, List.mem_append, List.mem_singleton, List.mem_cons, h.mem, or_comm]
  · rw [hnames, List.nodup_append]
    refine ⟨h.nodup, List.nodup_singleton name, ?_⟩
    intro other hother last hlast heq
    rw [List.mem_singleton.mp hlast] at heq
    exact hfresh ((h.mem name).mpr (heq ▸ hother))
  · intro tool htool
    rcases List.mem_append.mp htool with htool | htool
    · exact h.accepted tool htool
    · rw [List.mem_singleton.mp htool]
      exact haccepted

theorem Taken.add {offers : List (Offer Peer)}
    {taken : List String × List (ToolDefinition × McpTool Peer)} (h : Taken hash offers taken)
    (offer : Offer Peer) :
    Taken hash (offers ++ [offer]) (addTool hash offer.server offer.peer taken offer.info) := by
  unfold addTool
  dsimp only
  split_ifs with hplain hhashed
  · -- both names are taken, and the tool is left out
    obtain ⟨names, hnamed, htools, hreduce⟩ := h.names
    refine ⟨⟨names ++ [none], ?_, ?_, ?_⟩, h.mem, h.nodup, h.accepted⟩
    · apply hnamed.concat
      · intro given hgiven
        cases hgiven
      · intro _
        rw [h.mem, ← hreduce] at hplain hhashed
        exact ⟨hplain, hhashed⟩
    · rw [entriesOf_concat hnamed.length, htools]
      exact (List.append_nil _).symm
    · rw [reduceOption_concat, hreduce]
      exact List.append_nil _
  · exact h.concat hhashed (hashedName_accepted hash _ _) (.inr ⟨rfl, hplain⟩)
  · exact h.concat hplain (toolName_accepted hash _ _) (.inl rfl)

theorem Taken.foldl {before : List (Offer Peer)}
    {taken : List String × List (ToolDefinition × McpTool Peer)} (h : Taken hash before taken)
    (offers : List (Offer Peer)) :
    Taken hash (before ++ offers)
      (offers.foldl (fun taken offer => addTool hash offer.server offer.peer taken offer.info)
        taken) := by
  induction offers generalizing before taken with
  | nil =>
    rw [List.append_nil]
    exact h
  | cons offer offers ih =>
    rw [List.append_cons]
    exact ih (h.add offer)

theorem taken_nil : Taken hash ([] : List (Offer Peer)) ([], []) := by
  constructor
  · refine ⟨[], ?_, rfl, rfl⟩
    constructor
    · rfl
    · intro i offer name hoffer
      cases hoffer
    · intro i offer hoffer
      cases hoffer
  · intro name
    exact Iff.rfl
  · exact List.nodup_nil
  · intro tool htool
    cases htool

variable (hash) in
theorem tools_eq (s : Servers Peer ToolInfo) :
    s.tools hash = (s.offers.foldl (fun taken offer =>
      addTool hash offer.server offer.peer taken offer.info) ([], [])).2 := by
  rw [Servers.tools, Servers.offers, List.foldl_flatMap]
  congr 2
  funext taken slot
  cases slot.peer with
  | none => rfl
  | some peer => rw [List.foldl_map]

end Session

/-- The names of the tools are distinct and accepted, the tools keep the order of the servers and
their lists, each one calls the server and the raw name it comes from, and a tool is left out only
where earlier tools have both of its names. -/
theorem tools_spec {Peer : Type} (hash : String → String → UInt32) (s : Servers Peer ToolInfo) :
    ((s.tools hash).map fun tool => tool.1.name).Nodup ∧
      (∀ tool ∈ s.tools hash, Accepted tool.1.name) ∧
      ∃ names, Named hash s.offers names ∧ s.tools hash = entriesOf s.offers names := by
  rw [tools_eq]
  have h : Taken hash ([] ++ s.offers) _ := taken_nil.foldl s.offers
  obtain ⟨names, hnamed, htools, _⟩ := h.names
  exact ⟨h.nodup, h.accepted, names, hnamed, htools⟩

end Yuke.Mcp
