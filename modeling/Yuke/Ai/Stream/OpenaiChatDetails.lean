import Yuke.Ai.Stream.OpenaiChat
import Yuke.Ai.Wire.SaysText

/-!
# The reasoning details of a Chat answer

Fragments of one type that follow each other are one entry, so the entries of a stream depend on what
the fragments of each run say together, and not on where the provider cut them.
-/

set_option autoImplicit false

namespace Yuke.Ai

open Yuke.Shared
open Yuke.Ai.Write

namespace OpenaiChatStream

def bodies (kind : DetailKind) (run : List Value) : List String :=
  run.filterMap fun entry => entry.getStr kind.field

/-- The first value of `key` that is not empty. -/
def firstValue (key : String) (run : List Value) : Option String :=
  run.findSome? fun entry => keepFirst none (entry.getStr key)

/-- What a run of fragments of `kind` says together. The index is the one of its first fragment. -/
def entryOf (kind : DetailKind) (run : List Value) : Detail where
  kind := kind
  body := String.join (bodies kind run)
  hasBody := !(bodies kind run).isEmpty
  signature := firstValue "signature" run
  id := firstValue "id" run
  format := firstValue "format" run
  index := run.head?.bind fun entry => entry.getInt "index"

def known (entries : List Value) : List (DetailKind × Value) :=
  entries.filterMap fun entry => (kindOf entry).map fun kind => (kind, entry)

def follows (before fragment : DetailKind × Value) : Bool :=
  before.1 = fragment.1 && fragment.1 ≠ .encrypted

def entryOfRun (run : List (DetailKind × Value)) : Option Detail :=
  run.head?.map fun first => entryOf first.1 (run.map Prod.snd)

def merged (entries : List Value) : List Detail :=
  ((known entries).splitBy follows).filterMap entryOfRun

theorem keepFirst_eq_or (slot value : Option String) :
    keepFirst slot value = slot.or (keepFirst none value) := by
  cases slot with
  | none => rfl
  | some kept => rfl

theorem or_firstValue (slot : Option String) (key : String) (entry : Value) (run : List Value) :
    (keepFirst slot (entry.getStr key)).or (firstValue key run) =
      slot.or (firstValue key (entry :: run)) := by
  rw [keepFirst_eq_or, Option.or_assoc, firstValue, firstValue, List.findSome?_cons]
  cases keepFirst none (entry.getStr key) with
  | none => rfl
  | some value => rfl

theorem foldl_join (run : List Value) (detail : Detail) :
    run.foldl Detail.join detail =
      { detail with
        body := detail.body ++ String.join (bodies detail.kind run)
        hasBody := detail.hasBody || !(bodies detail.kind run).isEmpty
        signature := detail.signature.or (firstValue "signature" run)
        id := detail.id.or (firstValue "id" run)
        format := detail.format.or (firstValue "format" run) } := by
  induction run generalizing detail with
  | nil => simp [bodies, firstValue]
  | cons entry run ih =>
    rw [List.foldl_cons, ih]
    simp only [Detail.join, or_firstValue]
    cases hbody : entry.getStr detail.kind.field with
    | none => simp [bodies, hbody]
    | some body =>
      have hbodies : bodies detail.kind (entry :: run) = body :: bodies detail.kind run := by
        simp [bodies, hbody]
      simp [hbodies, String.append_assoc]

theorem entryOf_eq (kind : DetailKind) (first : Value) (run : List Value) :
    entryOf kind (first :: run) = run.foldl Detail.join (Detail.new kind first) := by
  rw [Detail.new, ← List.foldl_cons, foldl_join]
  simp [entryOf]

theorem reused_eq_some {details : List Detail} {kind : DetailKind} {last : Detail} :
    reused details kind = some last ↔
      (∃ before, details = before ++ [last]) ∧ last.kind = kind ∧ kind ≠ .encrypted := by
  rw [reused, Option.filter_eq_some_iff, List.getLast?_eq_some_iff, decide_eq_true_eq]

theorem onDetail_reused (maxBlocks : Nat) (before : List Detail) {last : Detail} {entry : Value}
    (hkind : kindOf entry = some last.kind) (hwhole : last.kind ≠ .encrypted) :
    onDetail maxBlocks (before ++ [last]) entry = .ok (before ++ [last.join entry]) := by
  have hreused : reused (before ++ [last]) last.kind = some last :=
    reused_eq_some.mpr ⟨⟨before, rfl⟩, rfl, hwhole⟩
  simp [onDetail, hkind, hreused]

theorem onDetail_new {maxBlocks : Nat} {details : List Detail} {entry : Value} {kind : DetailKind}
    (hkind : kindOf entry = some kind) (hnew : reused details kind = none) :
    onDetail maxBlocks details entry =
      if maxBlocks ≤ details.length then .error (.error .tooLarge)
      else .ok (details ++ [.new kind entry]) := by
  rw [onDetail, hkind]
  simp only [hnew]

theorem foldlM_reused (maxBlocks : Nat) (before : List Detail) {last : Detail} {run : List Value}
    (hkind : ∀ entry ∈ run, kindOf entry = some last.kind) (hwhole : last.kind ≠ .encrypted) :
    run.foldlM (onDetail maxBlocks) (before ++ [last]) =
      .ok (before ++ [run.foldl Detail.join last]) := by
  induction run generalizing last with
  | nil => rfl
  | cons entry run ih =>
    have hsame : (last.join entry).kind = last.kind := rfl
    rw [List.foldlM_cons, onDetail_reused maxBlocks before (hkind entry List.mem_cons_self) hwhole]
    exact ih (fun more hmore => hsame ▸ hkind more (List.mem_cons_of_mem _ hmore)) hwhole

/-- `pieces` is `entry` with its text or its summary cut into fragments. The other members can be
on any of them, and the first one has the index. -/
structure Cut (entry : Value) (pieces : List Value) : Prop where
  body : ∃ kind body, kind ≠ .encrypted ∧ kindOf entry = some kind ∧
    entry.getStr kind.field = some body ∧ (∀ piece ∈ pieces, kindOf piece = some kind) ∧
      bodies kind pieces ≠ [] ∧ String.join (bodies kind pieces) = body
  index : (pieces.head?.bind fun piece => piece.getInt "index") = entry.getInt "index"
  values : ∀ key ∈ ["signature", "id", "format"],
    firstValue key pieces = keepFirst none (entry.getStr key)

inductive Recut : List Value → List Value → Prop where
  | nil : Recut [] []
  | keep (entry : Value) {entries more : List Value} : Recut entries more →
      Recut (entry :: entries) (entry :: more)
  | cut {entry : Value} {pieces entries more : List Value} : Cut entry pieces →
      Recut entries more → Recut (entry :: entries) (pieces ++ more)

theorem Cut.foldl_join {entry : Value} {pieces : List Value} (h : Cut entry pieces)
    {detail : Detail} (hkind : kindOf entry = some detail.kind) :
    pieces.foldl Detail.join detail = detail.join entry := by
  obtain ⟨kind, body, -, hentry, hbody, -, hsome, hjoin⟩ := h.body
  obtain rfl : kind = detail.kind := Option.some.inj (hentry.symm.trans hkind)
  rw [OpenaiChatStream.foldl_join, hjoin, h.values "signature" (by simp), h.values "id" (by simp),
    h.values "format" (by simp), ← keepFirst_eq_or, ← keepFirst_eq_or, ← keepFirst_eq_or]
  have hbodies : (bodies detail.kind pieces).isEmpty = false := by simpa using hsome
  simp [Detail.join, hbody, hbodies]

theorem Cut.foldlM {entry : Value} {pieces : List Value} (h : Cut entry pieces) (maxBlocks : Nat)
    (details : List Detail) :
    pieces.foldlM (onDetail maxBlocks) details = onDetail maxBlocks details entry := by
  obtain ⟨kind, body, hwhole, hentry, -, hpieces, hsome, -⟩ := h.body
  cases hreused : reused details kind with
  | some last =>
    obtain ⟨⟨before, rfl⟩, rfl, -⟩ := reused_eq_some.mp hreused
    rw [foldlM_reused maxBlocks before hpieces hwhole,
      onDetail_reused maxBlocks before hentry hwhole, h.foldl_join hentry]
  | none =>
    cases pieces with
    | nil => exact absurd rfl hsome
    | cons first rest =>
      have hfirst := hpieces first List.mem_cons_self
      have hindex : first.getInt "index" = entry.getInt "index" := h.index
      rw [List.foldlM_cons, onDetail_new hfirst hreused, onDetail_new hentry hreused]
      split
      · rfl
      · have hnew : rest.foldl Detail.join (.new kind first) = .new kind entry := by
          rw [Detail.new, ← List.foldl_cons, hindex]
          exact @Cut.foldl_join entry (first :: rest) h { kind := kind, index := entry.getInt "index" } hentry
        have hrest := @foldlM_reused maxBlocks details (.new kind first) rest
          (fun more hmore => hpieces more (List.mem_cons_of_mem _ hmore)) hwhole
        rw [hnew] at hrest
        exact hrest

theorem Recut.foldlM {entries more : List Value} (h : Recut entries more) (maxBlocks : Nat)
    (details : List Detail) :
    more.foldlM (onDetail maxBlocks) details = entries.foldlM (onDetail maxBlocks) details := by
  induction h generalizing details with
  | nil => rfl
  | keep entry _ ih =>
    rw [List.foldlM_cons, List.foldlM_cons]
    congr 1
    funext next
    exact ih next
  | cut hcut _ ih =>
    rw [List.foldlM_append, hcut.foldlM, List.foldlM_cons]
    congr 1
    funext next
    exact ih next

/-! ## The runs of a stream -/

theorem foldlM_known (maxBlocks : Nat) (entries : List Value) (details : List Detail) :
    entries.foldlM (onDetail maxBlocks) details =
      ((known entries).map Prod.snd).foldlM (onDetail maxBlocks) details := by
  induction entries generalizing details with
  | nil => rfl
  | cons entry entries ih =>
    cases hkind : kindOf entry with
    | none =>
      have hskip : known (entry :: entries) = known entries := by simp [known, hkind]
      have hsame : onDetail maxBlocks details entry = .ok details := by simp [onDetail, hkind]
      rw [List.foldlM_cons, hsame, hskip]
      exact ih details
    | some kind =>
      have htake : known (entry :: entries) = (kind, entry) :: known entries := by
        simp [known, hkind]
      rw [htake, List.map_cons, List.foldlM_cons, List.foldlM_cons]
      congr 1
      funext next
      exact ih next

theorem kindOf_of_known {entries : List Value} {fragment : DetailKind × Value}
    (h : fragment ∈ known entries) : kindOf fragment.2 = some fragment.1 := by
  obtain ⟨entry, -, hentry⟩ := List.mem_filterMap.mp h
  obtain ⟨kind, hkind, rfl⟩ := Option.map_eq_some_iff.mp hentry
  exact hkind

theorem follows_iff {before fragment : DetailKind × Value} :
    follows before fragment = true ↔ before.1 = fragment.1 ∧ fragment.1 ≠ .encrypted := by
  simp [follows]

theorem kind_of_chain {first : DetailKind × Value} {run : List (DetailKind × Value)}
    (h : (first :: run).IsChain fun before fragment => follows before fragment = true) :
    ∀ fragment ∈ run, fragment.1 = first.1 ∧ first.1 ≠ .encrypted := by
  induction run generalizing first with
  | nil => simp
  | cons second run ih =>
    obtain ⟨hfollows, hrest⟩ := List.isChain_cons_cons.mp h
    obtain ⟨hkind, hwhole⟩ := follows_iff.mp hfollows
    intro fragment hfragment
    rcases List.mem_cons.mp hfragment with rfl | hfragment
    · exact ⟨hkind.symm, hkind ▸ hwhole⟩
    · have hmore := ih hrest fragment hfragment
      rw [hkind]
      exact hmore

theorem foldlM_run {maxBlocks : Nat} {details last : List Detail} {first : DetailKind × Value}
    {run : List (DetailKind × Value)}
    (hkinds : ∀ fragment ∈ first :: run, kindOf fragment.2 = some fragment.1)
    (hchain : (first :: run).IsChain fun before fragment => follows before fragment = true)
    (hnew : reused details first.1 = none)
    (h : ((first :: run).map Prod.snd).foldlM (onDetail maxBlocks) details = .ok last) :
    last = details ++ [entryOf first.1 ((first :: run).map Prod.snd)] := by
  rw [List.map_cons, List.foldlM_cons,
    onDetail_new (hkinds first List.mem_cons_self) hnew] at h
  split at h
  · cases h
  · rw [List.map_cons, entryOf_eq]
    cases run with
    | nil =>
      cases h
      rfl
    | cons second run =>
      have hsame := kind_of_chain hchain
      have hrun := @foldlM_reused maxBlocks details (.new first.1 first.2)
        ((second :: run).map Prod.snd) (by
          intro entry hentry
          obtain ⟨fragment, hfragment, rfl⟩ := List.mem_map.mp hentry
          rw [hkinds fragment (List.mem_cons_of_mem _ hfragment), (hsame fragment hfragment).1]
          rfl) (hsame second List.mem_cons_self).2
      exact (Except.ok.inj (hrun.symm.trans h)).symm

theorem foldlM_runs {maxBlocks : Nat} {details last : List Detail}
    {runs : List (List (DetailKind × Value))}
    (hkinds : ∀ run ∈ runs, ∀ fragment ∈ run, kindOf fragment.2 = some fragment.1)
    (hsome : [] ∉ runs)
    (hchains : ∀ run ∈ runs, run.IsChain fun before fragment => follows before fragment = true)
    (hapart : runs.IsChain fun before run =>
      ∃ ha hb, follows (before.getLast ha) (run.head hb) = false)
    (hnew : ∀ run ∈ runs.head?, ∀ first ∈ run.head?, reused details first.1 = none)
    (h : (runs.flatten.map Prod.snd).foldlM (onDetail maxBlocks) details = .ok last) :
    last = details ++ runs.filterMap entryOfRun := by
  induction runs generalizing details with
  | nil =>
    cases h
    simp
  | cons run runs ih =>
    cases run with
    | nil => exact absurd List.mem_cons_self hsome
    | cons first run =>
      rw [List.flatten_cons, List.map_append, List.foldlM_append] at h
      obtain ⟨next, hrun, hrest⟩ := bind_eq_ok.mp h
      obtain ⟨hhead, htail⟩ := List.isChain_cons.mp hapart
      obtain rfl := foldlM_run (hkinds _ List.mem_cons_self) (hchains _ List.mem_cons_self)
        (hnew _ rfl _ rfl) hrun
      have hlast := ih (fun more hmore => hkinds more (List.mem_cons_of_mem _ hmore))
        (fun hno => hsome (List.mem_cons_of_mem _ hno))
        (fun more hmore => hchains more (List.mem_cons_of_mem _ hmore)) htail ?_ hrest
      · rw [hlast, List.filterMap_cons, entryOfRun]
        simp
      · intro more hmore second hsecond
        obtain ⟨hne, hne', hfollows⟩ := hhead more hmore
        cases more with
        | nil => cases hsecond
        | cons head more =>
          obtain rfl : head = second := by simpa using hsecond
          have hlastKind : ((first :: run).getLast hne).1 = first.1 := by
            cases run with
            | nil => rfl
            | cons other run =>
              rw [List.getLast_cons (by simp)]
              exact (kind_of_chain (hchains _ List.mem_cons_self) _ (List.getLast_mem _)).1
          cases hreused : reused (details ++ [entryOf first.1 ((first :: run).map Prod.snd)]) head.1 with
          | none => rfl
          | some found =>
            obtain ⟨⟨before, hbefore⟩, hkind, hwhole⟩ := reused_eq_some.mp hreused
            have hfound := (List.append_inj_right' hbefore rfl)
            simp only [List.cons.injEq, and_true] at hfound
            have hyes : follows ((first :: run).getLast hne) head = true := by
              rw [follows_iff, hlastKind, ← hkind, ← hfound]
              exact ⟨rfl, by rw [hfound, hkind]; exact hwhole⟩
            rw [List.head_cons] at hfollows
            rw [hyes] at hfollows
            cases hfollows

theorem details_eq_merged {maxBlocks : Nat} {entries : List Value} {details : List Detail}
    (h : entries.foldlM (onDetail maxBlocks) [] = .ok details) : details = merged entries := by
  rw [foldlM_known] at h
  obtain ⟨hflatten, hsome, hchains, hapart⟩ := List.splitBy_eq_iff.mp
    (rfl : (known entries).splitBy follows = (known entries).splitBy follows)
  rw [hflatten] at h
  refine foldlM_runs ?_ hsome hchains hapart ?_ h
  · intro run hrun fragment hfragment
    have hknown : fragment ∈ known entries := by
      rw [hflatten]
      exact List.mem_flatten_of_mem hrun hfragment
    exact kindOf_of_known hknown
  · intro run _ first _
    rfl

def textMember (name : String) (value : Option String) : JsonMembers :=
  value.elim [] fun text => [field name (str text)]

def Detail.value (detail : Detail) : Json :=
  .object ([field "type" (str detail.kind.name)] ++
    ((if detail.hasBody then [field detail.kind.field (str detail.body)] else []) ++
      (textMember "signature" detail.signature ++ (textMember "id" detail.id ++
        (textMember "format" detail.format ++
          detail.index.elim [] fun index => [field "index" (integer index)])))))

theorem says_textMember (name : String) (value : Option String) :
    SaysMembers (ifSome value (fieldStr name)) (.ok (textMember name value)) :=
  says_ifSome value fun text _ => says_fieldStr name text

theorem says_writeDetail (detail : Detail) : SaysValue (writeDetail detail) (.ok detail.value) := by
  have hindex := says_ifSome detail.index fun index _ => says_member "index" (says_int index)
  exact says_object <| (says_fieldStr "type" detail.kind.name).and <|
    (says_onlyIf detail.hasBody (says_fieldStr detail.kind.field detail.body)).and <|
      (says_textMember "signature" detail.signature).and <|
        (says_textMember "id" detail.id).and <| (says_textMember "format" detail.format).and hindex

theorem parse_detailsText (details : List Detail) :
    Json.parse (detailsText details).toList = some (.array (details.map Detail.value)) := by
  have harray : SaysValue (writeDetails details) (.ok (.array (details.map Detail.value))) :=
    says_array (says_each fun detail _ => says_writeDetail detail)
  obtain ⟨-, -, text, hreads, htext⟩ := harray.ok false
  have hparse := Json.reads_iff_parse.mp hreads
  rw [detailsText, htext, String.toList_ofList]
  exact hparse

end OpenaiChatStream

end Yuke.Ai
