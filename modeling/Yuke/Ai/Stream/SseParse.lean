import Yuke.Ai.Stream.Sse

/-!
# The parse of a whole stream

A stream is a list of lines, and its events are the blocks of lines between the empty ones. The
reader gives the payloads of this parse, however its bytes are cut into chunks.
-/

set_option autoImplicit false

namespace Yuke.Ai

structure SourceLine where
  text : Bytes
  ending : Bytes
  deriving DecidableEq

/-- The lines of a stream that starts with the text `line`. -/
def splitLines (line : Bytes) : Bytes → List SourceLine
  | [] => if line.isEmpty then [] else [⟨line, []⟩]
  | [b] => if isBreak b then [⟨line, [b]⟩] else [⟨line ++ [b], []⟩]
  | b :: c :: rest =>
    if b = cr ∧ c = lf then ⟨line, [cr, lf]⟩ :: splitLines [] rest
    else if isBreak b then ⟨line, [b]⟩ :: splitLines [] (c :: rest)
    else splitLines (line ++ [b]) (c :: rest)

def dataOf (text : Bytes) : Option Bytes :=
  let name := text.takeWhile (· ≠ colon)
  let value := (text.dropWhile (· ≠ colon)).drop 1
  if name = dataName then some (stripPrefix [space] value) else none

def joinData (pending : Option Bytes) (value : Bytes) : Bytes :=
  match pending with
  | some data => data ++ [lf] ++ value
  | none => value

/-- The events of lines, after `used` bytes. A line counts with the first byte of its ending, and the
second byte of an ending counts after the event that the line ends. -/
def parseEvents (maxTotal maxEvent : Nat) (atStart : Bool) (used : Nat) (pending : Option Bytes) :
    List SourceLine → Frames
  | [] =>
    match pending with
    | some data => ⟨[⟨data, true⟩], false⟩
    | none => ⟨[], false⟩
  | line :: lines =>
    let counted := used + line.text.length + min 1 line.ending.length
    if maxEvent < line.text.length ∨ maxTotal < counted then ⟨[], true⟩
    else
      let text := if atStart then stripPrefix bom line.text else line.text
      let used := used + line.text.length + line.ending.length
      let after := fun pending =>
        if maxTotal < used then ⟨[], true⟩ else parseEvents maxTotal maxEvent false used pending lines
      if text = [] then
        match pending with
        | some data => (after none).cons ⟨data, false⟩
        | none => after none
      else
        match dataOf text with
        | some value =>
          let data := joinData pending value
          if maxEvent < data.length then ⟨[], true⟩ else after (some data)
        | none => after pending

def parse (limits : ResponseLimits) (bytes : Bytes) : Frames :=
  parseEvents limits.maxResponseBytes limits.maxEventBytes true 0 none (splitLines [] bytes)

theorem splitLines_cons (line : Bytes) (b : UInt8) (rest : Bytes) :
    splitLines line (b :: rest) =
      if b = cr ∧ rest.head? = some lf then ⟨line, [cr, lf]⟩ :: splitLines [] rest.tail
      else if isBreak b then ⟨line, [b]⟩ :: splitLines [] rest
      else splitLines (line ++ [b]) rest := by
  cases rest with
  | nil => simp [splitLines]
  | cons c rest => simp [splitLines]

theorem splitLines_unbroken {text : Bytes} (line more : Bytes)
    (h : ∀ b ∈ text, isBreak b = false) :
    splitLines line (text ++ more) = splitLines (line ++ text) more := by
  induction text generalizing line with
  | nil => simp
  | cons b text ih =>
    obtain ⟨hb, htext⟩ := List.forall_mem_cons.mp h
    have hcr : b ≠ cr := by
      rintro rfl
      exact absurd hb (by decide)
    rw [List.cons_append, splitLines_cons, if_neg (fun h => hcr h.1), hb, if_neg Bool.false_ne_true,
      ih _ htext, List.append_assoc, List.singleton_append]

theorem splitLines_broken {text : Bytes} {terminator : UInt8} (line more : Bytes)
    (h : ∀ b ∈ text, isBreak b = false) (hbreak : isBreak terminator = true) :
    splitLines line (text ++ terminator :: more) =
      if terminator = cr ∧ more.head? = some lf then
        ⟨line ++ text, [cr, lf]⟩ :: splitLines [] more.tail
      else ⟨line ++ text, [terminator]⟩ :: splitLines [] more := by
  rw [splitLines_unbroken line _ h, splitLines_cons, if_pos hbreak]

theorem splitLines_started {line : Bytes} (hline : line ≠ []) (bytes : Bytes) :
    ∃ text ending lines, splitLines line bytes = ⟨line ++ text, ending⟩ :: lines := by
  induction bytes generalizing line with
  | nil => exact ⟨[], [], [], by simp [splitLines, hline]⟩
  | cons b rest ih =>
    rw [splitLines_cons]
    split
    · exact ⟨[], _, _, by rw [List.append_nil]⟩
    · split
      · exact ⟨[], _, _, by rw [List.append_nil]⟩
      · obtain ⟨text, ending, lines, h⟩ := @ih (line ++ [b]) (by simp)
        exact ⟨b :: text, ending, lines, by simpa using h⟩

namespace Sse

theorem fieldOf_eq (line : Bytes) :
    fieldOf line = (line.takeWhile (· ≠ colon), (line.dropWhile (· ≠ colon)).drop 1) := by
  induction line with
  | nil => rfl
  | cons b line ih =>
    unfold fieldOf at ih ⊢
    rw [List.findIdx?_cons]
    by_cases hb : b = colon
    · simp [hb]
    · rw [List.takeWhile_cons_of_pos (by simpa using hb),
        List.dropWhile_cons_of_pos (by simpa using hb)]
      cases hfound : line.findIdx? (· = colon) with
      | none =>
        rw [hfound] at ih
        obtain ⟨hname, hvalue⟩ := Prod.mk.inj ih
        rw [← hname, ← hvalue]
        simp [hb]
      | some position =>
        rw [hfound] at ih
        obtain ⟨hname, hvalue⟩ := Prod.mk.inj ih
        rw [← hname, ← hvalue]
        simp [hb]

theorem dataOf_eq (text : Bytes) : dataOf text =
    if text.head? = some colon then none
    else if (fieldOf text).1 = dataName then some (stripPrefix [space] (fieldOf text).2) else none := by
  rw [fieldOf_eq]
  unfold dataOf
  split
  · next hcolon =>
    cases text with
    | nil => cases hcolon
    | cons b text =>
      obtain rfl : b = colon := by simpa using hcolon
      simp [dataName]
  · rfl

/-! ## The parse that a reader goes on with -/

def pending (sse : Sse) : Option Bytes := if sse.dataSeen then some sse.data else none

/-- The reader keeps its bounds, and holds nothing after the end of its stream. -/
structure Valid (ended : Bool) (sse : Sse) : Prop where
  line : sse.line.length ≤ sse.maxEvent
  data : sse.data.length ≤ sse.maxEvent
  total : sse.total ≤ sse.maxTotal
  counted : sse.line.length ≤ sse.total
  unseen : sse.dataSeen = false → sse.data = []
  broken : sse.sawCr = true → sse.line = []
  cut : sse.cut = true → ended = true ∧ sse.line = [] ∧ sse.rest = []

def lineFrom (sse : Sse) (bytes : Bytes) : Frames :=
  parseEvents sse.maxTotal sse.maxEvent sse.atStart (sse.total - sse.line.length) sse.pending
    (splitLines sse.line bytes)

def resume (sse : Sse) (bytes : Bytes) : Frames :=
  if sse.sawCr ∧ bytes.head? = some lf then
    if sse.maxTotal < sse.total + 1 then ⟨[], true⟩
    else ({ sse with total := sse.total + 1 } : Sse).lineFrom bytes.tail
  else sse.lineFrom bytes

def resumeLine (sse : Sse) (text bytes : Bytes) : Frames :=
  match sse.addLine text with
  | .error _ => ⟨[], true⟩
  | .ok (payload, added) =>
    let next : Sse := { added with line := [] }
    if payload then (next.takePayload.2.resume bytes).cons ⟨added.data, false⟩
    else next.resume bytes

section Parse

variable {ended : Bool} {sse : Sse} {text : Bytes}

theorem parseEvents_addLine (hdata : sse.data.length ≤ sse.maxEvent)
    (hunseen : sse.dataSeen = false → sse.data = []) {used : Nat} {ending : Bytes}
    {lines : List SourceLine} (hevent : text.length ≤ sse.maxEvent)
    (htotal : used + text.length + min 1 ending.length ≤ sse.maxTotal) :
    parseEvents sse.maxTotal sse.maxEvent sse.atStart used sse.pending (⟨text, ending⟩ :: lines) =
      match sse.addLine text with
      | .error _ => ⟨[], true⟩
      | .ok (payload, added) =>
        let used := used + text.length + ending.length
        let after := fun pending => if sse.maxTotal < used then ⟨[], true⟩
          else parseEvents sse.maxTotal sse.maxEvent added.atStart used pending lines
        if payload then (after none).cons ⟨added.data, false⟩ else after added.pending := by
  rw [parseEvents, addLine]
  dsimp only
  rw [if_neg (by omega)]
  generalize (if sse.atStart then stripPrefix bom text else text) = line
  by_cases hline : line = []
  · subst hline
    cases hseen : sse.dataSeen <;> simp [pending, hseen]
  · have hnot : line.isEmpty = false := by simpa using hline
    rw [if_neg hline, dataOf_eq, hnot, if_neg Bool.false_ne_true]
    by_cases hcolon : line.head? = some colon
    · simp [hcolon, pending]
    · rw [if_neg hcolon, if_neg hcolon]
      by_cases hname : (fieldOf line).1 = dataName
      · rw [if_pos hname, if_pos hname]
        generalize stripPrefix [space] (fieldOf line).2 = value
        cases hseen : sse.dataSeen with
        | false =>
          rw [hunseen hseen] at hdata ⊢
          by_cases hlarge : sse.maxEvent < value.length
          · simp [pending, hseen, joinData, hlarge]
          · simp [pending, hseen, joinData, hlarge]
        | true =>
          by_cases hlarge : sse.maxEvent < sse.data.length + (value.length + 1)
          · have hlarge' : sse.maxEvent - sse.data.length < 1 + value.length := by omega
            simp [pending, hseen, joinData, hlarge, hlarge']
          · have hlarge' : ¬ sse.maxEvent - sse.data.length < 1 + value.length := by omega
            simp [pending, hseen, joinData, hlarge, hlarge']
      · simp [hname, pending]

theorem addLine_ok {payload : Bool} {added : Sse} (hdata : sse.data.length ≤ sse.maxEvent)
    (hunseen : sse.dataSeen = false → sse.data = []) (h : sse.addLine text = .ok (payload, added)) :
    ∃ data seen, added = { sse with atStart := false, data := data, dataSeen := seen } ∧
      data.length ≤ sse.maxEvent ∧ (seen = false → data = []) := by
  unfold addLine at h
  generalize (if sse.atStart then stripPrefix bom text else text) = line at h
  dsimp only at h
  generalize (if sse.dataSeen then [lf] else []) = separator at h
  split at h
  · cases h
    exact ⟨_, _, rfl, hdata, hunseen⟩
  split at h
  · cases h
    exact ⟨_, _, rfl, hdata, hunseen⟩
  split at h
  · split at h
    · cases h
    · cases h
      refine ⟨_, _, rfl, ?_, fun h => nomatch h⟩
      simp only [List.length_append]
      omega
  · cases h
    exact ⟨_, _, rfl, hdata, hunseen⟩

theorem lineFrom_taken (hdata : sse.data.length ≤ sse.maxEvent)
    (hunseen : sse.dataSeen = false → sse.data = []) {used : Nat} {bytes : Bytes}
    {found : SourceLine} {lines : List SourceLine} (hevent : found.text.length ≤ sse.maxEvent)
    (hused : used + found.text.length + min 1 found.ending.length = sse.total)
    (htotal : sse.total ≤ sse.maxTotal)
    (hresume : ∀ next : Sse, next.sawCr = sse.sawCr → next.total = sse.total → next.line = [] →
      next.maxTotal = sse.maxTotal → next.maxEvent = sse.maxEvent →
      next.resume bytes = if sse.maxTotal < used + found.text.length + found.ending.length then ⟨[], true⟩
        else parseEvents sse.maxTotal sse.maxEvent next.atStart
          (used + found.text.length + found.ending.length) next.pending lines) :
    parseEvents sse.maxTotal sse.maxEvent sse.atStart used sse.pending (found :: lines) =
      sse.resumeLine found.text bytes := by
  obtain ⟨text, ending⟩ := found
  rw [parseEvents_addLine hdata hunseen hevent (hused.trans_le htotal), resumeLine]
  cases hadd : sse.addLine text with
  | error error => rfl
  | ok added =>
    obtain ⟨payload, added⟩ := added
    obtain ⟨data, seen, rfl, _, _⟩ := addLine_ok hdata hunseen hadd
    cases payload with
    | true =>
      dsimp only
      rw [if_pos rfl, if_pos rfl]
      exact congrArg _ (hresume { sse with
        atStart := false, line := [], data := [], dataSeen := false } rfl rfl rfl rfl rfl).symm
    | false =>
      dsimp only
      rw [if_neg Bool.false_ne_true, if_neg Bool.false_ne_true]
      exact (hresume { sse with
        atStart := false, line := [], data := data, dataSeen := seen } rfl rfl rfl rfl rfl).symm

theorem addLine_line (line : Bytes) : ({ sse with line := line } : Sse).addLine text =
    (sse.addLine text).map fun out => (out.1, { out.2 with line := line }) := by
  unfold addLine
  dsimp only
  generalize (if sse.atStart then stripPrefix bom text else text) = text
  generalize (if sse.dataSeen then [lf] else []) = separator
  split
  · rfl
  · split
    · rfl
    · split
      · split
        · rfl
        · rfl
      · rfl

theorem resumeLine_line (sse : Sse) (line text bytes : Bytes) :
    ({ sse with line := line } : Sse).resumeLine text bytes = sse.resumeLine text bytes := by
  unfold resumeLine
  rw [addLine_line]
  cases sse.addLine text with
  | error error => rfl
  | ok added => rfl

theorem resume_of_line_eq_nil (hline : sse.line = []) (bytes : Bytes) : sse.resume bytes =
    if sse.sawCr ∧ bytes.head? = some lf then
      if sse.maxTotal < sse.total + 1 then ⟨[], true⟩
      else parseEvents sse.maxTotal sse.maxEvent sse.atStart (sse.total + 1) sse.pending
        (splitLines [] bytes.tail)
    else parseEvents sse.maxTotal sse.maxEvent sse.atStart sse.total sse.pending
      (splitLines [] bytes) := by
  simp only [resume, lineFrom, hline, List.length_nil, Nat.sub_zero]
  rfl

theorem resume_of_ended (hline : sse.line = []) : sse.resume [] =
    match sse.pending with
    | some data => ⟨[⟨data, true⟩], false⟩
    | none => ⟨[], false⟩ := by
  rw [resume_of_line_eq_nil hline, if_neg (by simp)]
  rfl

theorem resume_of_sawCr_eq_false (h : sse.sawCr = false) (bytes : Bytes) :
    sse.resume bytes = sse.lineFrom bytes := by
  rw [resume, h, if_neg (fun h => Bool.false_ne_true h.1)]

theorem lineFrom_large {bytes more : Bytes} (hbytes : ∀ b ∈ bytes, isBreak b = false)
    (hline : sse.line.length ≤ sse.maxEvent) (htotal : sse.total ≤ sse.maxTotal)
    (hcounted : sse.line.length ≤ sse.total)
    (hlarge : sse.maxEvent < sse.line.length + bytes.length ∨
      sse.maxTotal < sse.total + bytes.length) :
    sse.lineFrom (bytes ++ more) = ⟨[], true⟩ := by
  have hne : sse.line ++ bytes ≠ [] := by
    intro h
    have hlength := congrArg List.length h
    simp only [List.length_append, List.length_nil] at hlength
    omega
  obtain ⟨text, ending, lines, hlines⟩ := splitLines_started hne more
  rw [lineFrom, splitLines_unbroken _ _ hbytes, hlines, parseEvents]
  dsimp only
  rw [if_pos]
  simp only [List.length_append]
  omega

theorem lineFrom_broken_large {terminator : UInt8} {more : Bytes}
    (htext : ∀ b ∈ text, isBreak b = false) (hbreak : isBreak terminator = true)
    (hcounted : sse.line.length ≤ sse.total)
    (hlarge : sse.maxEvent < sse.line.length + text.length ∨
      sse.maxTotal < sse.total + (text.length + 1)) :
    sse.lineFrom (text ++ terminator :: more) = ⟨[], true⟩ := by
  rw [lineFrom, splitLines_broken _ _ htext hbreak]
  split
  · rw [parseEvents]
    dsimp only
    rw [if_pos]
    simp only [List.length_append, List.length_cons]
    omega
  · rw [parseEvents]
    dsimp only
    rw [if_pos]
    simp only [List.length_append, List.length_cons]
    omega

theorem lineFrom_copyRest {more : Bytes} (h : ∀ b ∈ sse.rest, isBreak b = false) :
    sse.lineFrom (sse.rest ++ more) = sse.copyRest.lineFrom more := by
  have hused : sse.copyRest.total - sse.copyRest.line.length = sse.total - sse.line.length := by
    simp only [copyRest, List.length_append]
    omega
  rw [lineFrom, lineFrom, hused, splitLines_unbroken _ _ h]
  rfl

theorem lineFrom_takeLine {terminator : UInt8} {tail more : Bytes} (hvalid : sse.Valid ended)
    (htext : ∀ b ∈ text, isBreak b = false) (hbreak : isBreak terminator = true)
    (hevent : sse.line.length + text.length ≤ sse.maxEvent)
    (htotal : sse.total + (text.length + 1) ≤ sse.maxTotal) :
    sse.lineFrom (text ++ terminator :: (tail ++ more)) =
      (sse.takeLine text terminator tail).resumeLine (sse.line ++ text) (tail ++ more) := by
  have hcounted := hvalid.counted
  have hlength : (sse.line ++ text).length ≤ sse.maxEvent := by
    rw [List.length_append]
    exact hevent
  rw [lineFrom, splitLines_broken _ _ htext hbreak]
  split
  · next hcrlf =>
    refine @lineFrom_taken (sse.takeLine text terminator tail) hvalid.data hvalid.unseen _ _
      ⟨sse.line ++ text, [cr, lf]⟩ _ hlength ?_ htotal ?_
    · simp only [takeLine, List.length_append, List.length_cons, List.length_nil]
      omega
    · intro next hsaw hnext hline hmaxTotal hmaxEvent
      have hsaw' : next.sawCr = true := hsaw.trans (decide_eq_true hcrlf.1)
      have hused : sse.total - sse.line.length + (sse.line ++ text).length + [cr, lf].length =
          next.total + 1 := by
        rw [hnext]
        simp only [takeLine, List.length_append, List.length_cons, List.length_nil]
        omega
      rw [resume_of_line_eq_nil hline, if_pos ⟨hsaw', hcrlf.2⟩, hmaxTotal, hmaxEvent]
      simp only [hused]
  · next hcrlf =>
    refine @lineFrom_taken (sse.takeLine text terminator tail) hvalid.data hvalid.unseen _ _
      ⟨sse.line ++ text, [terminator]⟩ _ hlength ?_ htotal ?_
    · simp only [takeLine, List.length_append, List.length_cons, List.length_nil]
      omega
    · intro next hsaw hnext hline hmaxTotal hmaxEvent
      have hnot : ¬ (next.sawCr = true ∧ (tail ++ more).head? = some lf) := by
        rintro ⟨hsaw', hlf⟩
        exact hcrlf ⟨of_decide_eq_true (hsaw.symm.trans hsaw'), hlf⟩
      have hused : sse.total - sse.line.length + (sse.line ++ text).length + [terminator].length =
          next.total := by
        rw [hnext]
        simp only [takeLine, List.length_append, List.length_cons, List.length_nil]
        omega
      have hsmall : ¬ (sse.takeLine text terminator tail).maxTotal < next.total := by
        rw [hnext]
        exact Nat.not_lt.mpr htotal
      rw [resume_of_line_eq_nil hline, if_neg hnot, hmaxTotal, hmaxEvent]
      simp only [hused, if_neg hsmall]

end Parse

/-! ## The reader follows the parse -/

section Reader

variable {ended : Bool} {sse : Sse} {more : Bytes}

def Taken (ended : Bool) (sse : Sse) : Prop :=
  ({ sse with line := [] } : Sse).Valid ended ∧ sse.cut = false

/-- What `readLine` found agrees with the payloads that were to come. -/
def LineAgrees (ended : Bool) (more : Bytes) (frames : Frames) :
    Except TooLarge (Line × Sse) → Prop
  | .error _ => frames = ⟨[], true⟩
  | .ok (.inChunk text, read) => read.Taken ended ∧ read.line = [] ∧
      frames = read.resumeLine text (read.rest ++ more)
  | .ok (.copied, read) => read.Taken ended ∧
      frames = read.resumeLine read.line (read.rest ++ more)
  | .ok (.needMore, read) => read.Valid ended ∧ read.rest = [] ∧ frames = read.resume more
  | .ok (.end, read) => read.Valid ended ∧ ended = true ∧ read.rest = [] ∧ read.line = [] ∧
      frames = read.resume []

theorem outOfBytes_agrees (hvalid : sse.Valid ended) (hrest : sse.rest = [])
    (hmore : ended = true → more = []) :
    LineAgrees ended more (sse.resume more) (.ok (sse.outOfBytes ended, sse)) := by
  cases ended with
  | false => exact ⟨hvalid, hrest, rfl⟩
  | true =>
    rw [hmore rfl]
    by_cases hline : sse.line = []
    · have hout : sse.outOfBytes true = .end := by simp [outOfBytes, hline]
      rw [hout]
      exact ⟨hvalid, rfl, hrest, hline, rfl⟩
    · have hout : sse.outOfBytes true = .copied := by simp [outOfBytes, hline]
      have hcut : sse.cut = false := by
        by_contra hcut
        exact hline (hvalid.cut (by simpa using hcut)).2.1
      have hsaw : sse.sawCr = false := by
        by_contra hsaw
        exact hline (hvalid.broken (by simpa using hsaw))
      have hlines : splitLines sse.line [] = [⟨sse.line, []⟩] := by simp [splitLines, hline]
      have hcounted := hvalid.counted
      have htaken : ({ sse with line := [] } : Sse).Valid true :=
        { hvalid with
          line := Nat.zero_le _
          counted := Nat.zero_le _
          broken := fun _ => rfl
          cut := fun h => nomatch hcut.symm.trans h }
      rw [hout]
      refine ⟨⟨htaken, hcut⟩, ?_⟩
      rw [resume_of_sawCr_eq_false hsaw, lineFrom, hlines, hrest, List.append_nil]
      refine @lineFrom_taken sse hvalid.data hvalid.unseen _ _ ⟨sse.line, []⟩ _ hvalid.line ?_
        hvalid.total ?_
      · simp only [List.length_nil]
        omega
      · intro next hsaw' htotal hline' hmaxTotal hmaxEvent
        have hused : sse.total - sse.line.length + sse.line.length + ([] : Bytes).length =
            next.total := by
          rw [htotal, List.length_nil]
          omega
        have hsmall : ¬ sse.maxTotal < next.total := by
          rw [htotal]
          exact Nat.not_lt.mpr hvalid.total
        rw [resume_of_line_eq_nil hline', if_neg (by simp), hmaxTotal, hmaxEvent]
        simp only [hused, if_neg hsmall]
        rfl

theorem skipLf_agrees (hvalid : sse.Valid ended) (hrest : sse.rest ≠ []) (more : Bytes) :
    (sse.skipLf = .error .tooLarge ∧ sse.resume (sse.rest ++ more) = ⟨[], true⟩) ∨
      ∃ skipped, sse.skipLf = .ok skipped ∧ skipped.Valid ended ∧ skipped.sawCr = false ∧
        skipped.cut = false ∧ sse.resume (sse.rest ++ more) = skipped.lineFrom (skipped.rest ++ more) := by
  have hcut : sse.cut = false := by
    by_contra hcut
    exact hrest (hvalid.cut (by simpa using hcut)).2.2
  have hhead : (sse.rest ++ more).head? = sse.rest.head? := by
    cases h : sse.rest with
    | nil => exact absurd h hrest
    | cons => rfl
  have htail : (sse.rest ++ more).tail = sse.rest.tail ++ more := by
    cases h : sse.rest with
    | nil => exact absurd h hrest
    | cons => rfl
  unfold skipLf resume
  rw [hhead, htail]
  cases hsaw : sse.sawCr with
  | false => exact .inr ⟨sse, rfl, hvalid, hsaw, hcut, rfl⟩
  | true =>
    by_cases hlf : sse.rest.head? = some lf
    · by_cases hlarge : sse.maxTotal < sse.total + 1
      · refine .inl ⟨?_, ?_⟩
        · have hconsume : ({ sse with sawCr := false } : Sse).consume 1 = .error .tooLarge :=
            consume_of_lt Nat.one_pos hlarge
          simpa [hlf] using hconsume
        · simp [hlf, hlarge]
      · have htotal : sse.total + 1 ≤ sse.maxTotal := Nat.not_lt.mp hlarge
        have hconsume : ({ sse with sawCr := false } : Sse).consume 1 =
            .ok { sse with sawCr := false, total := sse.total + 1, rest := sse.rest.drop 1 } :=
          consume_of_le htotal
        refine .inr ⟨{ sse with
          sawCr := false, total := sse.total + 1, rest := sse.rest.drop 1 }, ?_, ?_, rfl, hcut, ?_⟩
        · simpa [hlf] using hconsume
        · have hcounted := hvalid.counted
          exact ⟨hvalid.line, hvalid.data, htotal, hcounted.trans (Nat.le_succ _), hvalid.unseen,
            (fun h => nomatch h), (fun h => nomatch hcut.symm.trans h)⟩
        · simp [hlf, hlarge, lineFrom, pending]
    · refine .inr ⟨{ sse with sawCr := false }, by simp [hlf], ?_, rfl, hcut, ?_⟩
      · exact ⟨hvalid.line, hvalid.data, hvalid.total, hvalid.counted, hvalid.unseen,
          (fun h => nomatch h), (fun h => nomatch hcut.symm.trans h)⟩
      · simp [hlf, lineFrom, pending]

theorem scanLine_agrees (hvalid : sse.Valid ended) (hsaw : sse.sawCr = false) (hcut : sse.cut = false)
    (hmore : ended = true → more = []) :
    LineAgrees ended more (sse.lineFrom (sse.rest ++ more)) (sse.scanLine ended) := by
  rcases break_cases sse.rest with hunbroken | ⟨text, terminator, tail, hrest, htext, hbreak⟩
  · by_cases hlarge : sse.maxEvent < sse.line.length + sse.rest.length ∨
      sse.maxTotal < sse.total + sse.rest.length
    · rw [scanLine_unbroken_large hunbroken hvalid.line hvalid.total hlarge]
      exact lineFrom_large hunbroken hvalid.line hvalid.total hvalid.counted hlarge
    · push Not at hlarge
      have hcounted := hvalid.counted
      have hcopied : sse.copyRest.Valid ended :=
        { line := by simpa [copyRest] using hlarge.1
          data := hvalid.data
          total := hlarge.2
          counted := by
            simp only [copyRest, List.length_append]
            omega
          unseen := hvalid.unseen
          broken := fun h => nomatch hsaw.symm.trans h
          cut := fun h => nomatch hcut.symm.trans h }
      rw [scanLine_unbroken hunbroken hlarge.1 hlarge.2, lineFrom_copyRest hunbroken,
        ← @resume_of_sawCr_eq_false sse.copyRest hsaw]
      exact outOfBytes_agrees hcopied rfl hmore
  · by_cases hlarge : sse.maxEvent < sse.line.length + text.length ∨
      sse.maxTotal < sse.total + (text.length + 1)
    · rw [scanLine_broken_large hrest htext hbreak hvalid.line hlarge, hrest, List.append_assoc,
        List.cons_append]
      exact lineFrom_broken_large htext hbreak hvalid.counted hlarge
    · push Not at hlarge
      have hcounted := hvalid.counted
      rw [scanLine_broken hrest htext hbreak hlarge.1 hlarge.2, hrest, List.append_assoc,
        List.cons_append, lineFrom_takeLine hvalid htext hbreak hlarge.1 hlarge.2]
      have htaken : ({ sse.takeLine text terminator tail with line := [] } : Sse).Valid ended :=
        { hvalid with
          line := Nat.zero_le _
          total := hlarge.2
          counted := Nat.zero_le _
          broken := fun _ => rfl
          cut := fun h => nomatch hcut.symm.trans h }
      split
      · next hline =>
        have hnil : sse.line = [] := List.isEmpty_iff.mp hline
        refine ⟨⟨htaken, hcut⟩, hnil, ?_⟩
        rw [hnil]
        rfl
      · exact ⟨⟨htaken, hcut⟩, (resumeLine_line _ _ _ _).symm⟩

theorem readLine_agrees (hvalid : sse.Valid ended) (hmore : ended = true → more = []) :
    LineAgrees ended more (sse.resume (sse.rest ++ more)) (sse.readLine ended) := by
  unfold readLine
  split
  · next hrest =>
    rw [List.isEmpty_iff.mp hrest]
    exact outOfBytes_agrees hvalid (List.isEmpty_iff.mp hrest) hmore
  · next hrest =>
    rcases skipLf_agrees hvalid (by simpa using hrest) more with
      ⟨hskip, hframes⟩ | ⟨skipped, hskip, hvalid', hsaw, hcut, hframes⟩
    · rw [hskip, hframes]
      exact rfl
    · rw [hskip, hframes]
      change LineAgrees ended more _ (if skipped.rest.isEmpty then _ else _)
      split
      · next hrest' =>
        rw [List.isEmpty_iff.mp hrest', ← resume_of_sawCr_eq_false hsaw]
        exact outOfBytes_agrees hvalid' (List.isEmpty_iff.mp hrest') hmore
      · exact scanLine_agrees hvalid' hsaw hcut hmore

def StepAgrees (ended : Bool) (more : Bytes) (frames : Frames) :
    Except TooLarge (Option Step × Sse) → Prop
  | .error _ => frames = ⟨[], true⟩
  | .ok (none, sse) => sse.Valid ended ∧ frames = sse.resume (sse.rest ++ more)
  | .ok (some .payload, sse) => sse.takePayload.2.Valid ended ∧
      frames = (sse.takePayload.2.resume (sse.rest ++ more)).cons ⟨sse.data, sse.cut⟩
  | .ok (some .needMore, sse) => sse.Valid ended ∧ sse.rest = [] ∧ frames = sse.resume more
  | .ok (some .end, _) => frames = ⟨[], false⟩

theorem addLine_agrees {text : Bytes} (htaken : sse.Taken ended) :
    StepAgrees ended more (sse.resumeLine text (sse.rest ++ more)) (do
      let (payload, added) ← sse.addLine text
      return (if payload then some .payload else none, { added with line := [] })) := by
  obtain ⟨hvalid, hcut⟩ := htaken
  unfold resumeLine
  cases hadd : sse.addLine text with
  | error error => rfl
  | ok added =>
    obtain ⟨payload, added⟩ := added
    obtain ⟨data, seen, rfl, hdata, hunseen⟩ := @addLine_ok sse text payload added hvalid.data
      hvalid.unseen hadd
    cases payload with
    | true =>
      refine ⟨{ hvalid with data := Nat.zero_le _, unseen := fun _ => rfl }, ?_⟩
      simp only [hcut]
      rfl
    | false => exact ⟨{ hvalid with data := hdata, unseen := hunseen }, rfl⟩

theorem nextLine_agrees (hvalid : sse.Valid ended) (hmore : ended = true → more = []) :
    StepAgrees ended more (sse.resume (sse.rest ++ more)) (sse.nextLine ended) := by
  have hagrees := readLine_agrees hvalid hmore
  unfold nextLine
  cases hread : sse.readLine ended with
  | error error =>
    rw [hread] at hagrees
    exact hagrees
  | ok found =>
    obtain ⟨line, read⟩ := found
    rw [hread] at hagrees
    cases line with
    | needMore => exact hagrees
    | «end» =>
      obtain ⟨hvalid', hended, hrest, hline, hframes⟩ := hagrees
      rw [hframes, resume_of_ended hline]
      cases hseen : read.dataSeen with
      | false =>
        rw [pending, hseen]
        change StepAgrees _ _ _ (.ok (some (if read.dataSeen then .payload else .end), _))
        rw [hseen]
        exact rfl
      | true =>
        rw [pending, hseen]
        change StepAgrees _ _ _
          (.ok (some (if read.dataSeen then .payload else .end), { read with cut := read.dataSeen }))
        rw [hseen]
        refine ⟨{ hvalid' with
          data := Nat.zero_le _
          unseen := fun _ => rfl
          cut := fun _ => ⟨hended, hline, hrest⟩ }, ?_⟩
        have htake : ({ read with dataSeen := false, data := [], cut := true } : Sse).resume
            (read.rest ++ more) = ⟨[], false⟩ := by
          rw [hmore hended, hrest, List.append_nil]
          exact resume_of_ended hline
        exact (congrArg (Frames.cons ⟨read.data, true⟩) htake).symm
    | inChunk text =>
      obtain ⟨htaken, hline, hframes⟩ := hagrees
      have hstep := @addLine_agrees ended read more text htaken
      rw [hframes]
      change StepAgrees _ _ _ (do
        let (payload, added) ← read.addLine text
        return (if payload then some .payload else none, added))
      cases hadd : read.addLine text with
      | error error =>
        rw [hadd] at hstep
        exact hstep
      | ok added =>
        rw [hadd] at hstep
        have hadded : ({ added.2 with line := [] } : Sse) = added.2 := by
          rw [← hline, ← (addLine_frame hadd).1]
        change StepAgrees _ _ _ (.ok (_, { added.2 with line := [] })) at hstep
        rw [hadded] at hstep
        exact hstep
    | copied =>
      obtain ⟨htaken, hframes⟩ := hagrees
      rw [hframes]
      exact addLine_agrees htaken

theorem next_agrees (hvalid : sse.Valid ended) (hmore : ended = true → more = []) :
    StepAgrees ended more (sse.resume (sse.rest ++ more))
      ((sse.next ended).map fun out => (some out.1, out.2)) := by
  induction hwork : sse.work using Nat.strong_induction_on generalizing sse with
  | _ work ih =>
    subst hwork
    have hagrees := nextLine_agrees hvalid hmore
    rw [next]
    split
    · next hnext =>
      rw [hnext] at hagrees
      exact hagrees
    · next hnext =>
      rw [hnext] at hagrees
      exact hagrees
    · next between hnext =>
      rw [hnext] at hagrees
      rw [hagrees.2]
      exact ih between.work (nextLine_left hnext) hagrees.1 rfl

end Reader

theorem readAll_eq (ended : Bool) (chunks : List Bytes) (sse : Sse) (hvalid : sse.Valid ended)
    (hchunks : ended = true → chunks = []) :
    sse.readAll ended chunks = sse.resume (sse.rest ++ chunks.flatten) := by
  have hmore : ended = true → chunks.flatten = [] := by
    intro hended
    rw [hchunks hended]
    rfl
  have hagrees := next_agrees hvalid hmore
  fun_induction readAll ended chunks sse with
  | case1 ended chunks sse error hnext =>
    rw [hnext] at hagrees
    exact hagrees.symm
  | case2 ended chunks sse found hnext ih =>
    rw [hnext] at hagrees
    obtain ⟨hvalid', hframes⟩ := hagrees
    rw [ih hvalid' hchunks hmore (next_agrees hvalid' hmore)]
    exact hframes.symm
  | case3 ended sse found hnext chunk chunks ih =>
    rw [hnext] at hagrees
    obtain ⟨hvalid', hrest, hframes⟩ := hagrees
    have hfed : (found.feed chunk).Valid ended :=
      { hvalid' with cut := fun hcut => nomatch hchunks (hvalid'.cut hcut).1 }
    have hchunks' : ended = true → chunks = [] := fun hended => nomatch hchunks hended
    have hmore' : ended = true → chunks.flatten = [] := fun hended => nomatch hchunks hended
    rw [ih hfed hchunks' hmore' (next_agrees hfed hmore'), hframes]
    rfl
  | case4 ended sse found hnext ih =>
    rw [hnext] at hagrees
    obtain ⟨hvalid', hrest, hframes⟩ := hagrees
    have hended : found.Valid true :=
      { hvalid' with cut := fun hcut => ⟨rfl, (hvalid'.cut hcut).2⟩ }
    rw [ih hended (fun _ => rfl) (fun _ => rfl) (next_agrees hended fun _ => rfl), hframes, hrest]
    rfl
  | case5 ended chunks sse found hnext =>
    rw [hnext] at hagrees
    exact hagrees.symm

end Sse

/-- The reader gives the payloads of the whole stream, and stops at the same point for its bounds,
for each cut of the stream into chunks. -/
theorem readAll_eq_parse (limits : ResponseLimits) (chunks : List Bytes) :
    (Sse.new limits).readAll false chunks = parse limits chunks.flatten := by
  have hvalid : (Sse.new limits).Valid false :=
    { line := Nat.zero_le _
      data := Nat.zero_le _
      total := Nat.zero_le _
      counted := Nat.zero_le _
      unseen := fun _ => rfl
      broken := fun _ => rfl
      cut := fun h => nomatch h }
  rw [Sse.readAll_eq false chunks _ hvalid (fun h => nomatch h)]
  rfl

end Yuke.Ai
