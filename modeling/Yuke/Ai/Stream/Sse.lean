import Yuke.Ai.Response

/-!
# The SSE reader

The reader turns chunks of bytes into the `data` payloads of their events. It resumes across chunks,
and copies only a line that crosses a chunk boundary.
-/

set_option autoImplicit false

namespace Yuke.Ai

abbrev Bytes : Type := List UInt8

def lf : UInt8 := 0x0a
def cr : UInt8 := 0x0d
def colon : UInt8 := 0x3a
def space : UInt8 := 0x20

def bom : Bytes := [0xef, 0xbb, 0xbf]

def dataName : Bytes := [0x64, 0x61, 0x74, 0x61]

def isBreak (b : UInt8) : Bool := b = lf || b = cr

/-- The slice without a leading `start`. -/
def stripPrefix (start line : Bytes) : Bytes :=
  if start.isPrefixOf line then line.drop start.length else line

inductive TooLarge where
  | tooLarge
  deriving DecidableEq

/-- What one call of `Sse.next` found. -/
inductive Step where
  | payload
  | needMore
  | «end»
  deriving DecidableEq

/-- What `Sse.readLine` found. The buffer of the reader holds a copied line. -/
inductive Line where
  | inChunk (line : Bytes)
  | copied
  | needMore
  | «end»
  deriving DecidableEq

/-- The state of the reader. `rest` is the part of the chunk that it did not consume. -/
structure Sse where
  maxTotal : Nat
  maxEvent : Nat
  line : Bytes := []
  data : Bytes := []
  dataSeen : Bool := false
  total : Nat := 0
  atStart : Bool := true
  sawCr : Bool := false
  cut : Bool := false
  rest : Bytes := []
  deriving DecidableEq

namespace Sse

def new (limits : ResponseLimits) : Sse where
  maxTotal := limits.maxResponseBytes
  maxEvent := limits.maxEventBytes

def feed (sse : Sse) (chunk : Bytes) : Sse := { sse with rest := chunk }

/-- Take the payload, and start the next event. The caller clears the buffer and gives it back. -/
def takePayload (sse : Sse) : Bytes × Sse := (sse.data, { sse with dataSeen := false, data := [] })

def consume (sse : Sse) (count : Nat) : Except TooLarge Sse :=
  if count > sse.maxTotal - sse.total then .error .tooLarge
  else .ok { sse with total := sse.total + count, rest := sse.rest.drop count }

/-- What a reader without bytes finds. A last line without its terminator still counts. -/
def outOfBytes (ended : Bool) (sse : Sse) : Line :=
  if ended then (if sse.line.isEmpty then .end else .copied) else .needMore

/-- Skip the line feed of a terminator whose carriage return ended the previous line. -/
def skipLf (sse : Sse) : Except TooLarge Sse :=
  if sse.sawCr then
    let sse := { sse with sawCr := false }
    if sse.rest.head? = some lf then sse.consume 1 else .ok sse
  else
    .ok sse

def scanLine (ended : Bool) (sse : Sse) : Except TooLarge (Line × Sse) :=
  let stop := sse.rest.findIdx isBreak
  if stop > sse.maxEvent - sse.line.length then .error .tooLarge
  else
    match sse.rest[stop]? with
    | none => do
      -- The line runs past the chunk.
      let sse ← { sse with line := sse.line ++ sse.rest }.consume stop
      return (sse.outOfBytes ended, sse)
    | some terminator => do
      let text := sse.rest.take stop
      let sse ← { sse with sawCr := terminator = cr }.consume (stop + 1)
      if sse.line.isEmpty then return (.inChunk text, sse)
      else return (.copied, { sse with line := sse.line ++ text })

/-- Find one line without its terminator. The loop of the source comes here at most three times: with
a line feed to skip, with bytes, and without. -/
def readLine (ended : Bool) (sse : Sse) : Except TooLarge (Line × Sse) :=
  if sse.rest.isEmpty then .ok (sse.outOfBytes ended, sse)
  else do
    let sse ← sse.skipLf
    if sse.rest.isEmpty then return (sse.outOfBytes ended, sse)
    else sse.scanLine ended

def fieldOf (line : Bytes) : Bytes × Bytes :=
  match line.findIdx? (· = colon) with
  | some position => (line.take position, line.drop (position + 1))
  | none => (line, [])

def addLine (sse : Sse) (line : Bytes) : Except TooLarge (Bool × Sse) :=
  let line := if sse.atStart then stripPrefix bom line else line
  let sse := { sse with atStart := false }
  if line.isEmpty then .ok (sse.dataSeen, sse)
  else if line.head? = some colon then .ok (false, sse)
  else
    let field := fieldOf line
    if field.1 = dataName then
      let value := stripPrefix [space] field.2
      let separator := if sse.dataSeen then [lf] else []
      if separator.length + value.length > sse.maxEvent - sse.data.length then .error .tooLarge
      else .ok (false, { sse with data := sse.data ++ separator ++ value, dataSeen := true })
    else
      .ok (false, sse)

/-- One turn of the loop of `next`. It gives no step when the reader goes on to the next line. -/
def nextLine (ended : Bool) (sse : Sse) : Except TooLarge (Option Step × Sse) := do
  match ← sse.readLine ended with
  | (.needMore, sse) => return (some .needMore, sse)
  | (.end, sse) =>
    -- A pending payload counts without the blank line behind it.
    return (some (if sse.dataSeen then .payload else .end), { sse with cut := sse.dataSeen })
  | (.inChunk line, sse) =>
    let (payload, sse) ← sse.addLine line
    return (if payload then some .payload else none, sse)
  | (.copied, sse) =>
    let (payload, sse) ← sse.addLine sse.line
    return (if payload then some .payload else none, { sse with line := [] })

def work (sse : Sse) : Nat := sse.line.length + sse.rest.length

theorem consume_of_le {sse : Sse} {count : Nat} (h : sse.total + count ≤ sse.maxTotal) :
    sse.consume count =
      .ok { sse with total := sse.total + count, rest := sse.rest.drop count } := by
  rw [consume, if_neg (by omega)]

theorem consume_of_lt {sse : Sse} {count : Nat} (hcount : 0 < count)
    (h : sse.maxTotal < sse.total + count) : sse.consume count = .error .tooLarge := by
  rw [consume, if_pos (by omega)]

theorem break_cases (bytes : Bytes) : (∀ b ∈ bytes, isBreak b = false) ∨
    ∃ text terminator tail, bytes = text ++ terminator :: tail ∧
      (∀ b ∈ text, isBreak b = false) ∧ isBreak terminator = true := by
  induction bytes with
  | nil => exact .inl (by simp)
  | cons b bytes ih =>
    cases hb : isBreak b with
    | true => exact .inr ⟨[], b, bytes, rfl, by simp, hb⟩
    | false =>
      rcases ih with hall | ⟨text, terminator, tail, rfl, htext, hbreak⟩
      · exact .inl (by simpa [hb] using hall)
      · exact .inr ⟨b :: text, terminator, tail, rfl, by simpa [hb] using htext, hbreak⟩

section Scan

variable {ended : Bool} {sse : Sse} {text tail : Bytes} {terminator : UInt8}

theorem findIdx_unbroken {bytes : Bytes} (h : ∀ b ∈ bytes, isBreak b = false) :
    bytes.findIdx isBreak = bytes.length :=
  List.findIdx_eq_length.mpr h

theorem findIdx_broken (htext : ∀ b ∈ text, isBreak b = false) (hbreak : isBreak terminator = true) :
    (text ++ terminator :: tail).findIdx isBreak = text.length := by
  rw [List.findIdx_append, findIdx_unbroken htext, if_neg (Nat.lt_irrefl _), List.findIdx_cons, hbreak]
  simp

def copyRest (sse : Sse) : Sse :=
  { sse with line := sse.line ++ sse.rest, total := sse.total + sse.rest.length, rest := [] }

theorem scanLine_unbroken (h : ∀ b ∈ sse.rest, isBreak b = false)
    (hevent : sse.line.length + sse.rest.length ≤ sse.maxEvent)
    (htotal : sse.total + sse.rest.length ≤ sse.maxTotal) :
    sse.scanLine ended = .ok (sse.copyRest.outOfBytes ended, sse.copyRest) := by
  have hconsume : ({ sse with line := sse.line ++ sse.rest } : Sse).consume sse.rest.length =
      .ok { sse with
        line := sse.line ++ sse.rest
        total := sse.total + sse.rest.length
        rest := sse.rest.drop sse.rest.length } := consume_of_le htotal
  unfold scanLine
  rw [findIdx_unbroken h]
  dsimp only
  rw [if_neg (by omega), List.getElem?_eq_none (Nat.le_refl _)]
  dsimp only
  rw [hconsume, List.drop_length]
  rfl

theorem scanLine_unbroken_large (h : ∀ b ∈ sse.rest, isBreak b = false)
    (hline : sse.line.length ≤ sse.maxEvent) (hused : sse.total ≤ sse.maxTotal)
    (hlarge : sse.maxEvent < sse.line.length + sse.rest.length ∨
      sse.maxTotal < sse.total + sse.rest.length) :
    sse.scanLine ended = .error .tooLarge := by
  unfold scanLine
  rw [findIdx_unbroken h]
  dsimp only
  split
  · rfl
  · have htotal : sse.maxTotal < sse.total + sse.rest.length := by omega
    have hconsume : ({ sse with line := sse.line ++ sse.rest } : Sse).consume sse.rest.length =
        .error .tooLarge := consume_of_lt (by omega) htotal
    rw [List.getElem?_eq_none (Nat.le_refl _)]
    dsimp only
    rw [hconsume]
    rfl

def takeLine (sse : Sse) (text : Bytes) (terminator : UInt8) (tail : Bytes) : Sse :=
  { sse with
    sawCr := terminator = cr
    total := sse.total + (text.length + 1)
    rest := tail }

theorem scanLine_broken (hrest : sse.rest = text ++ terminator :: tail)
    (htext : ∀ b ∈ text, isBreak b = false) (hbreak : isBreak terminator = true)
    (hevent : sse.line.length + text.length ≤ sse.maxEvent)
    (htotal : sse.total + (text.length + 1) ≤ sse.maxTotal) :
    sse.scanLine ended = .ok (if sse.line.isEmpty then
      (.inChunk text, sse.takeLine text terminator tail)
      else (.copied, { sse.takeLine text terminator tail with line := sse.line ++ text })) := by
  have hconsume : ({ sse with sawCr := terminator = cr } : Sse).consume (text.length + 1) =
      .ok (sse.takeLine text terminator tail) := by
    have hok := @consume_of_le { sse with sawCr := terminator = cr } _ htotal
    rw [hok]
    simp [takeLine, hrest]
  have hget : sse.rest[text.length]? = some terminator := by
    rw [hrest, List.getElem?_append_right (Nat.le_refl _), Nat.sub_self, List.getElem?_cons_zero]
  have hstop : sse.rest.findIdx isBreak = text.length := by
    rw [hrest, findIdx_broken htext hbreak]
  have htake : sse.rest.take text.length = text := by
    rw [hrest, List.take_left]
  unfold scanLine
  rw [hstop]
  dsimp only
  rw [if_neg (by omega), hget, htake]
  dsimp only
  rw [hconsume]
  change (if sse.line.isEmpty then _ else _) = _
  split <;> rfl

theorem scanLine_broken_large (hrest : sse.rest = text ++ terminator :: tail)
    (htext : ∀ b ∈ text, isBreak b = false) (hbreak : isBreak terminator = true)
    (hline : sse.line.length ≤ sse.maxEvent)
    (hlarge : sse.maxEvent < sse.line.length + text.length ∨
      sse.maxTotal < sse.total + (text.length + 1)) :
    sse.scanLine ended = .error .tooLarge := by
  have hget : sse.rest[text.length]? = some terminator := by
    rw [hrest, List.getElem?_append_right (Nat.le_refl _), Nat.sub_self, List.getElem?_cons_zero]
  have hstop : sse.rest.findIdx isBreak = text.length := by
    rw [hrest, findIdx_broken htext hbreak]
  unfold scanLine
  rw [hstop]
  dsimp only
  split
  · rfl
  · have htotal : sse.maxTotal < sse.total + (text.length + 1) := by omega
    have hconsume : ({ sse with sawCr := terminator = cr } : Sse).consume (text.length + 1) =
        .error .tooLarge := consume_of_lt (by omega) htotal
    rw [hget]
    dsimp only
    rw [hconsume]
    rfl

end Scan

/-! ## Each line takes bytes -/

section Work

variable {ended : Bool} {sse sse' : Sse}

theorem consume_ok {count : Nat} (h : sse.consume count = .ok sse') :
    sse' = { sse with total := sse.total + count, rest := sse.rest.drop count } := by
  unfold consume at h
  split at h
  · cases h
  · exact (Except.ok.inj h).symm

theorem skipLf_work (h : sse.skipLf = .ok sse') :
    sse'.work ≤ sse.work ∧ sse'.dataSeen = sse.dataSeen := by
  unfold skipLf at h
  split at h
  · dsimp only at h
    split at h
    · rw [consume_ok h]
      simp [work]
    · cases h
      exact ⟨Nat.le_refl _, rfl⟩
  · cases h
    exact ⟨Nat.le_refl _, rfl⟩

def Left (ended : Bool) (sse : Sse) (line : Line) (sse' : Sse) : Prop :=
  match line with
  | .inChunk _ => sse'.work < sse.work
  | .copied => sse'.rest.length < sse.work
  | .needMore => sse'.work ≤ sse.work ∧ ended = false
  | .end => sse'.work ≤ sse.work ∧ sse'.dataSeen = sse.dataSeen

theorem left_outOfBytes (h : sse'.work ≤ sse.work) (hseen : sse'.dataSeen = sse.dataSeen) :
    sse.Left ended (sse'.outOfBytes ended) sse' := by
  unfold outOfBytes
  split
  · split
    · exact ⟨h, hseen⟩
    · next hline =>
      have hpos : 0 < sse'.line.length := List.length_pos_iff.mpr (by simpa using hline)
      have hlt : sse'.rest.length < sse'.work := by
        unfold work
        omega
      exact hlt.trans_le h
  · next hended => exact ⟨h, by simpa using hended⟩

theorem scanLine_left {line : Line} (h : sse.scanLine ended = .ok (line, sse')) :
    sse.Left ended line sse' := by
  unfold scanLine at h
  dsimp only at h
  split at h
  · cases h
  cases hstop : sse.rest[sse.rest.findIdx isBreak]? with
  | none =>
    rw [hstop] at h
    have hlength : sse.rest.length ≤ sse.rest.findIdx isBreak := List.getElem?_eq_none_iff.mp hstop
    dsimp only at h
    cases hconsume : ({ sse with line := sse.line ++ sse.rest } : Sse).consume
        (sse.rest.findIdx isBreak) with
    | error error => simp [hconsume, bind, Except.bind] at h
    | ok copied =>
      rw [hconsume] at h
      obtain ⟨rfl, rfl⟩ : copied.outOfBytes ended = line ∧ copied = sse' := by
        simpa [bind, Except.bind, pure, Except.pure] using h
      rw [consume_ok hconsume]
      exact left_outOfBytes (by simp [work, hlength]) rfl
  | some terminator =>
    rw [hstop] at h
    obtain ⟨hlt, _⟩ := List.getElem?_eq_some_iff.mp hstop
    dsimp only at h
    cases hconsume : ({ sse with sawCr := terminator = cr } : Sse).consume
        (sse.rest.findIdx isBreak + 1) with
    | error error => simp [hconsume, bind, Except.bind] at h
    | ok taken =>
      rw [hconsume] at h
      have htaken := consume_ok hconsume
      change (if taken.line.isEmpty then _ else _) = _ at h
      split at h
      · cases h
        rw [htaken]
        simp only [Left, work, List.length_drop]
        omega
      · cases h
        rw [htaken]
        simp only [Left, work, List.length_drop]
        omega

theorem readLine_left {line : Line} (h : sse.readLine ended = .ok (line, sse')) :
    sse.Left ended line sse' := by
  unfold readLine at h
  split at h
  · cases h
    exact left_outOfBytes (Nat.le_refl _) rfl
  cases hskip : sse.skipLf with
  | error error => simp [hskip, bind, Except.bind] at h
  | ok skipped =>
    rw [hskip] at h
    obtain ⟨hwork, hseen⟩ := skipLf_work hskip
    change (if skipped.rest.isEmpty then _ else _) = _ at h
    split at h
    · cases h
      exact left_outOfBytes hwork hseen
    · have hleft := scanLine_left h
      cases line with
      | inChunk | copied => exact Nat.lt_of_lt_of_le hleft hwork
      | needMore => exact ⟨Nat.le_trans hleft.1 hwork, hleft.2⟩
      | «end» => exact ⟨Nat.le_trans hleft.1 hwork, hleft.2.trans hseen⟩

theorem addLine_frame {line : Bytes} {payload : Bool} (h : sse.addLine line = .ok (payload, sse')) :
    sse'.line = sse.line ∧ sse'.rest = sse.rest := by
  unfold addLine at h
  generalize (if sse.atStart then stripPrefix bom line else line) = text at h
  dsimp only at h
  generalize (if sse.dataSeen then [lf] else []) = separator at h
  split at h
  · cases h
    exact ⟨rfl, rfl⟩
  split at h
  · cases h
    exact ⟨rfl, rfl⟩
  split at h
  · split at h
    · cases h
    · cases h
      exact ⟨rfl, rfl⟩
  · cases h
    exact ⟨rfl, rfl⟩

def StepLeft (ended : Bool) (sse : Sse) (step : Option Step) (sse' : Sse) : Prop :=
  match step with
  | none => sse'.work < sse.work
  | some .payload => sse'.work < sse.work ∨ sse'.work ≤ sse.work ∧ sse.dataSeen = true
  | some .needMore => ended = false
  | some .end => True

theorem nextLine_left {step : Option Step} (h : sse.nextLine ended = .ok (step, sse')) :
    sse.StepLeft ended step sse' := by
  have stepLeft_of_lt : ∀ payload : Bool, sse'.work < sse.work →
      sse.StepLeft ended (if payload then some .payload else none) sse' := by
    intro payload hlt
    cases payload with
    | true => exact .inl hlt
    | false => exact hlt
  unfold nextLine at h
  cases hread : sse.readLine ended with
  | error error => simp [hread, bind, Except.bind] at h
  | ok found =>
    obtain ⟨line, read⟩ := found
    have hleft := readLine_left hread
    simp only [hread, bind, Except.bind, pure, Except.pure] at h
    cases line with
    | needMore =>
      cases h
      exact hleft.2
    | «end» =>
      cases h
      cases hseen : read.dataSeen with
      | true => exact .inr ⟨hleft.1, hleft.2.symm.trans hseen⟩
      | false => trivial
    | inChunk line =>
      dsimp only at h
      cases hadd : read.addLine line with
      | error error => simp [hadd] at h
      | ok added =>
        simp only [hadd] at h
        cases h
        obtain ⟨hline, hrest⟩ := addLine_frame hadd
        refine stepLeft_of_lt _ ?_
        rw [work, hline, hrest]
        exact hleft
    | copied =>
      dsimp only at h
      cases hadd : read.addLine read.line with
      | error error => simp [hadd] at h
      | ok added =>
        simp only [hadd] at h
        cases h
        obtain ⟨_, hrest⟩ := addLine_frame hadd
        refine stepLeft_of_lt _ ?_
        have hlt : read.rest.length < sse.work := hleft
        simpa [work, hrest] using hlt

end Work

def next (ended : Bool) (sse : Sse) : Except TooLarge (Step × Sse) :=
  match _h : sse.nextLine ended with
  | .error error => .error error
  | .ok (some step, sse) => .ok (step, sse)
  | .ok (none, sse) => next ended sse
termination_by sse.work
decreasing_by exact nextLine_left _h

theorem next_left {ended : Bool} {sse sse' : Sse} {step : Step}
    (h : sse.next ended = .ok (step, sse')) : sse.StepLeft ended (some step) sse' := by
  induction hwork : sse.work using Nat.strong_induction_on generalizing sse with
  | _ work ih =>
    subst hwork
    rw [next] at h
    split at h
    · cases h
    · next hnext =>
      cases h
      exact nextLine_left hnext
    · next between hnext =>
      have hlt : between.work < sse.work := nextLine_left hnext
      have hleft := ih between.work hlt h rfl
      cases step with
      | payload =>
        rcases hleft with hleft | ⟨hleft, _⟩
        · exact .inl (hleft.trans hlt)
        · exact .inl (hleft.trans_lt hlt)
      | needMore => exact hleft
      | «end» => trivial

end Sse

structure Payload where
  data : Bytes
  cut : Bool
  deriving DecidableEq

structure Frames where
  payloads : List Payload
  tooLarge : Bool
  deriving DecidableEq

def Frames.cons (payload : Payload) (frames : Frames) : Frames :=
  { frames with payloads := payload :: frames.payloads }

namespace Sse

def readAll (ended : Bool) (chunks : List Bytes) (sse : Sse) : Frames :=
  match _h : sse.next ended with
  | .error _ => ⟨[], true⟩
  | .ok (.payload, sse) => (readAll ended chunks sse.takePayload.2).cons ⟨sse.takePayload.1, sse.cut⟩
  | .ok (.needMore, sse) =>
    match chunks with
    | chunk :: chunks => readAll ended chunks (sse.feed chunk)
    | [] => readAll true [] sse
  | .ok (.end, _) => ⟨[], false⟩
termination_by (chunks.length, (!ended).toNat, sse.work, sse.dataSeen.toNat)
decreasing_by
  · refine .right _ (.right _ ?_)
    rcases next_left _h with hlt | ⟨hle, hseen⟩
    · exact .left _ _ hlt
    · refine Prod.Lex.right' _ hle ?_
      rw [hseen]
      exact Nat.zero_lt_one
  · exact .left _ _ (Nat.lt_succ_self _)
  · have hended : ended = false := next_left _h
    rw [hended]
    exact .right _ (.left _ _ Nat.zero_lt_one)

end Sse

end Yuke.Ai
