import Mathlib

/-!
# Programs that wait for their environment

A program runs by itself up to its next call, and the environment replies to each call. A run can
stop at any call, so the runs of a program are closed under prefixes: a caller that drops the
program half-way is a run too.

A `Contract` says what each call needs in the state of the world where it stands, and which
replies the world gives. `Holds` is the weakest precondition of a program under a contract.
-/

set_option autoImplicit false

namespace Yuke.Shared

/-- A sequential program over the calls `Call`. `cut` is the end of the fuel of a loop: the run
goes no further there. -/
inductive Program (Call : Type) (Reply : Call → Type) (α : Type) where
  | done (value : α)
  | call (request : Call) (next : Reply request → Program Call Reply α)
  | cut

structure Contract (Call : Type) (Reply : Call → Type) (σ : Type) where
  allowed : σ → Call → Prop
  answers : σ → (request : Call) → Reply request → σ → Prop

def Contract.both {Call : Type} {Reply : Call → Type} {σ τ : Type} (K : Contract Call Reply σ)
    (K' : Contract Call Reply τ) : Contract Call Reply (σ × τ) where
  allowed s c := K.allowed s.1 c ∧ K'.allowed s.2 c
  answers s c r t := K.answers s.1 c r t.1 ∧ K'.answers s.2 c r t.2

namespace Program

variable {Call Call' : Type} {Reply : Call → Type} {Reply' : Call' → Type}
variable {α β γ σ τ ρ : Type}

def bind : Program Call Reply α → (α → Program Call Reply β) → Program Call Reply β
  | done a, f => f a
  | call c next, f => call c fun r => (next r).bind f
  | cut, _ => cut

instance : Monad (Program Call Reply) where
  pure := done
  bind := bind

def perform (c : Call) : Program Call Reply (Reply c) := call c done

@[simp] theorem pure_eq_done (a : α) : (pure a : Program Call Reply α) = done a := rfl

@[simp] theorem done_bind (a : α) (f : α → Program Call Reply β) :
    (done a >>= f) = f a := rfl

@[simp] theorem call_bind (c : Call) (next : Reply c → Program Call Reply α)
    (f : α → Program Call Reply β) :
    (call c next >>= f) = call c fun r => next r >>= f := rfl

@[simp] theorem cut_bind (f : α → Program Call Reply β) :
    ((cut : Program Call Reply α) >>= f) = cut := rfl

@[simp] theorem perform_bind (c : Call) (f : Reply c → Program Call Reply β) :
    (perform c >>= f) = call c f := rfl

theorem bind_bind (p : Program Call Reply α) (f : α → Program Call Reply β)
    (g : β → Program Call Reply γ) : (p >>= f) >>= g = p >>= fun a => f a >>= g := by
  induction p with
  | done a => rfl
  | cut => rfl
  | call c next ih => simp only [call_bind, ih]

/-- Each call is allowed in the state where it stands, and each value that the program ends with
satisfies `post`, whatever the world replies. -/
def Holds (K : Contract Call Reply σ) (post : α → σ → Prop) :
    Program Call Reply α → σ → Prop
  | done a, s => post a s
  | call c next, s => K.allowed s c ∧ ∀ r t, K.answers s c r t → (next r).Holds K post t
  | cut, _ => True

section Rules
variable {K : Contract Call Reply σ} {post : α → σ → Prop}

@[simp] theorem holds_done {a : α} {s : σ} : (done a).Holds K post s ↔ post a s := Iff.rfl

@[simp] theorem holds_cut {s : σ} : (cut : Program Call Reply α).Holds K post s := trivial

theorem holds_call {c : Call} {next : Reply c → Program Call Reply α} {s : σ} :
    (call c next).Holds K post s ↔
      K.allowed s c ∧ ∀ r t, K.answers s c r t → (next r).Holds K post t := Iff.rfl

theorem holds_bind {p : Program Call Reply α} {f : α → Program Call Reply β}
    {post : β → σ → Prop} {s : σ} :
    (p >>= f).Holds K post s ↔ p.Holds K (fun a t => (f a).Holds K post t) s := by
  induction p generalizing s with
  | done a => rfl
  | cut => rfl
  | call c next ih =>
    rw [call_bind, holds_call, holds_call]
    constructor
    · rintro ⟨hc, hnext⟩
      exact ⟨hc, fun r t hr => (ih r).mp (hnext r t hr)⟩
    · rintro ⟨hc, hnext⟩
      exact ⟨hc, fun r t hr => (ih r).mpr (hnext r t hr)⟩

theorem Holds.mono {post' : α → σ → Prop} {p : Program Call Reply α} {s : σ}
    (h : p.Holds K post s) (hpost : ∀ a t, post a t → post' a t) : p.Holds K post' s := by
  induction p generalizing s with
  | done a => exact hpost a s h
  | cut => trivial
  | call c next ih => exact ⟨h.1, fun r t hr => ih r (h.2 r t hr)⟩

theorem Holds.bind {p : Program Call Reply α} {f : α → Program Call Reply β}
    {mid : α → σ → Prop} {post : β → σ → Prop} {s : σ} (h : p.Holds K mid s)
    (hf : ∀ a t, mid a t → (f a).Holds K post t) : (p >>= f).Holds K post s :=
  holds_bind.mpr (h.mono hf)

end Rules

inductive Run (answers : σ → (c : Call) → Reply c → σ → Prop) :
    Program Call Reply α → σ → List ((c : Call) × Reply c) → Program Call Reply α → σ → Prop where
  | stay (p : Program Call Reply α) (s : σ) : Run answers p s [] p s
  | step {c : Call} {next : Reply c → Program Call Reply α} {r : Reply c} {s t u : σ}
      {trace : List ((c : Call) × Reply c)} {q : Program Call Reply α} :
      answers s c r t → Run answers (next r) t trace q u →
        Run answers (call c next) s (⟨c, r⟩ :: trace) q u

section Runs
variable {K : Contract Call Reply σ} {post : α → σ → Prop} {p q : Program Call Reply α}
variable {s t : σ} {trace : List ((c : Call) × Reply c)}

theorem Holds.run (h : p.Holds K post s) (hrun : Run K.answers p s trace q t) :
    q.Holds K post t := by
  induction hrun with
  | stay => exact h
  | step hr _ ih => exact ih (h.2 _ _ hr)

theorem Holds.allowed_of_run {c : Call} {next : Reply c → Program Call Reply α}
    (h : p.Holds K post s) (hrun : Run K.answers p s trace (call c next) t) : K.allowed t c :=
  (h.run hrun).1

/-- A run whose replies all satisfy `P` is a run of the world that replies so. -/
theorem Run.with {answers : σ → (c : Call) → Reply c → σ → Prop} {P : (c : Call) → Reply c → Prop}
    (h : Run answers p s trace q t) (hall : ∀ entry ∈ trace, P entry.1 entry.2) :
    Run (fun s c r t => answers s c r t ∧ P c r) p s trace q t := by
  induction h with
  | stay => exact .stay _ _
  | step hr _ ih =>
    have hrest := ih fun entry hentry => hall entry (List.mem_cons_of_mem _ hentry)
    exact .step ⟨hr, hall _ List.mem_cons_self⟩ hrest

end Runs

def logContract (allowed : List ((c : Call) × Reply c) → Call → Prop) :
    Contract Call Reply (List ((c : Call) × Reply c)) where
  allowed := allowed
  answers log c r log' := log' = log ++ [⟨c, r⟩]

theorem Holds.every_run {allowed : List ((c : Call) × Reply c) → Call → Prop}
    {post : α → List ((c : Call) × Reply c) → Prop} {p q : Program Call Reply α}
    {log trace : List ((c : Call) × Reply c)} (h : p.Holds (logContract allowed) post log)
    {answers : σ → (c : Call) → Reply c → σ → Prop} {s t : σ} (hrun : Run answers p s trace q t) :
    q.Holds (logContract allowed) post (log ++ trace) ∧
      ∀ before entry after, trace = before ++ entry :: after → allowed (log ++ before) entry.1 := by
  induction hrun generalizing log with
  | stay => exact ⟨by simpa using h, by simp⟩
  | @step c next r _ _ _ trace q _ _ ih =>
    obtain ⟨hrest, hbefore⟩ := ih (h.2 r _ rfl)
    refine ⟨by simpa using hrest, ?_⟩
    intro before entry after heq
    cases before with
    | nil =>
      cases heq
      rw [List.append_nil]
      exact h.1
    | cons first before =>
      cases heq
      simpa using hbefore before entry after rfl

theorem Holds.both {K : Contract Call Reply σ} {K' : Contract Call Reply τ}
    {post : α → σ → Prop} {post' : α → τ → Prop} {p : Program Call Reply α} {s : σ} {s' : τ}
    (h : p.Holds K post s) (h' : p.Holds K' post' s') :
    p.Holds (K.both K') (fun a t => post a t.1 ∧ post' a t.2) (s, s') := by
  induction p generalizing s s' with
  | done a => exact ⟨h, h'⟩
  | cut => trivial
  | call c next ih =>
    refine ⟨⟨h.1, h'.1⟩, fun r t hr => ?_⟩
    exact ih r (h.2 r t.1 hr.1) (h'.2 r t.2 hr.2)

/-- The run of at most `n` steps in a world that replies by a function. -/
def follow (world : σ → (c : Call) → Reply c × σ) :
    Program Call Reply α → Nat → σ → List ((c : Call) × Reply c) × Program Call Reply α × σ
  | call c next, n + 1, s =>
    let out := (next (world s c).1).follow world n (world s c).2
    (⟨c, (world s c).1⟩ :: out.1, out.2)
  | p, _, s => ([], p, s)

theorem run_follow {answers : σ → (c : Call) → Reply c → σ → Prop}
    {world : σ → (c : Call) → Reply c × σ}
    (h : ∀ s c, answers s c (world s c).1 (world s c).2) (n : Nat) (p : Program Call Reply α)
    (s : σ) :
    Run answers p s (p.follow world n s).1 (p.follow world n s).2.1 (p.follow world n s).2.2 := by
  induction n generalizing p s with
  | zero => cases p <;> exact .stay _ s
  | succ n ih =>
    cases p with
    | done | cut => exact .stay _ s
    | call c next => exact .step (h s c) (ih _ _)

def handle (handler : (c : Call) → ρ → Program Call' Reply' (Reply c × ρ)) :
    Program Call Reply α → ρ → Program Call' Reply' (α × ρ)
  | done a, l => done (a, l)
  | call c next, l => handler c l >>= fun reply => (next reply.1).handle handler reply.2
  | cut, _ => cut

/-- The calls of a program may be answered by programs that keep its contract through `rel`. -/
theorem Holds.handle {K : Contract Call Reply σ} {K' : Contract Call' Reply' τ}
    {handler : (c : Call) → ρ → Program Call' Reply' (Reply c × ρ)}
    {rel : σ → ρ → τ → Prop} {post : α → σ → Prop}
    (answer : ∀ c s l t, rel s l t → K.allowed s c →
      (handler c l).Holds K'
        (fun reply t' => ∃ s', K.answers s c reply.1 s' ∧ rel s' reply.2 t') t)
    {p : Program Call Reply α} {s : σ} {l : ρ} {t : τ} (h : p.Holds K post s)
    (hrel : rel s l t) :
    (p.handle handler l).Holds K' (fun out t' => ∃ s', post out.1 s' ∧ rel s' out.2 t') t := by
  induction p generalizing s l t with
  | done a => exact ⟨s, h, hrel⟩
  | cut => trivial
  | call c next ih =>
    refine (answer c s l t hrel h.1).bind ?_
    rintro ⟨r, l'⟩ t' ⟨s', hr, hrel'⟩
    exact ih r (h.2 r s' hr) hrel'

theorem handle_bind (handler : (c : Call) → ρ → Program Call' Reply' (Reply c × ρ))
    (p : Program Call Reply α) (f : α → Program Call Reply β) (l : ρ) :
    (p >>= f).handle handler l =
      p.handle handler l >>= fun out => (f out.1).handle handler out.2 := by
  induction p generalizing l with
  | done a => rfl
  | cut => rfl
  | call c next ih =>
    change (handler c l >>= fun reply => (next reply.1 >>= f).handle handler reply.2) = _
    simp only [ih]
    exact (bind_bind _ _ _).symm

def values : List (Program Call Reply α) → Option (List α)
  | [] => some []
  | done a :: ps => (values ps).map (a :: ·)
  | _ :: _ => none

/-- Run the programs together and collect their values in order. `wake` picks the program that
goes on to its next call. -/
def joinAll (wake : Program Call Reply Nat) :
    Nat → List (Program Call Reply α) → Program Call Reply (List α)
  | 0, _ => cut
  | fuel + 1, ps =>
    match values ps with
    | some out => done out
    | none => wake >>= fun i =>
      match ps[i]? with
      | some (call c next) => call c fun r => joinAll wake fuel (ps.set i (next r))
      | _ => joinAll wake fuel ps

/-- The program keeps its contract while the other programs of a group move the world along `R`,
and it moves the world along `R` itself. -/
def Steady (K : Contract Call Reply σ) (R : σ → σ → Prop) (post : α → σ → Prop) :
    Program Call Reply α → σ → Prop
  | done a, s => post a s
  | call c next, s => K.allowed s c ∧ ∀ r t, K.answers s c r t →
      R s t ∧ ∀ u, R t u → (next r).Steady K R post u
  | cut, _ => True

section Join
variable {K : Contract Call Reply σ} {R : σ → σ → Prop}

theorem steady_bind {p : Program Call Reply α} {f : α → Program Call Reply β}
    {post : β → σ → Prop} {s : σ} :
    (p >>= f).Steady K R post s ↔ p.Steady K R (fun a t => (f a).Steady K R post t) s := by
  induction p generalizing s with
  | done a => rfl
  | cut => rfl
  | call c next ih =>
    constructor
    · rintro ⟨hc, hnext⟩
      refine ⟨hc, fun r t hr => ⟨(hnext r t hr).1, fun u hu => ?_⟩⟩
      exact (ih r).mp ((hnext r t hr).2 u hu)
    · rintro ⟨hc, hnext⟩
      refine ⟨hc, fun r t hr => ⟨(hnext r t hr).1, fun u hu => ?_⟩⟩
      exact (ih r).mpr ((hnext r t hr).2 u hu)

theorem Steady.mono {post post' : α → σ → Prop} {p : Program Call Reply α} {s : σ}
    (h : p.Steady K R post s) (hpost : ∀ a t, post a t → post' a t) :
    p.Steady K R post' s := by
  induction p generalizing s with
  | done a => exact hpost a s h
  | cut => trivial
  | call c next ih =>
    refine ⟨h.1, fun r t hr => ⟨(h.2 r t hr).1, fun u hu => ?_⟩⟩
    exact ih r ((h.2 r t hr).2 u hu)

theorem Steady.bind {p : Program Call Reply α} {f : α → Program Call Reply β}
    {mid : α → σ → Prop} {post : β → σ → Prop} {s : σ} (h : p.Steady K R mid s)
    (hf : ∀ a t, mid a t → (f a).Steady K R post t) : (p >>= f).Steady K R post s :=
  steady_bind.mpr (h.mono hf)

theorem values_forall₂ {ps : List (Program Call Reply α)} {out : List α}
    {posts : List (α → σ → Prop)} {s : σ} (hvalues : values ps = some out)
    (hps : List.Forall₂ (fun post p => Steady K R post p s) posts ps) :
    List.Forall₂ (fun post a => post a s) posts out := by
  induction hps generalizing out with
  | nil =>
    cases hvalues
    exact .nil
  | @cons post p posts ps hp _ ih =>
    cases p with
    | cut => cases hvalues
    | call => cases hvalues
    | done a =>
      cases hrest : values ps with
      | none => simp [values, hrest] at hvalues
      | some rest =>
        simp only [values, hrest, Option.map_some, Option.some.injEq] at hvalues
        subst hvalues
        exact .cons hp (ih hrest)

theorem holds_joinAll {wake : Program Call Reply Nat} (hrefl : ∀ s, R s s)
    (htrans : ∀ {s t u}, R s t → R t u → R s u)
    (fuel : Nat) {posts : List (α → σ → Prop)} {ps : List (Program Call Reply α)} {s : σ}
    (hwake : ∀ t, R s t → wake.Holds K (fun _ u => R t u) t)
    (hps : ∀ t, R s t → List.Forall₂ (fun post p => Steady K R post p t) posts ps) :
    (joinAll wake fuel ps).Holds K
      (fun out t => R s t ∧ List.Forall₂ (fun post a => post a t) posts out) s := by
  induction fuel generalizing ps s with
  | zero => trivial
  | succ fuel ih =>
    unfold joinAll
    cases hvalues : values ps with
    | some out => exact ⟨hrefl s, values_forall₂ hvalues (hps s (hrefl s))⟩
    | none =>
      refine (hwake s (hrefl s)).bind ?_
      intro i t hst
      have hps' : ∀ u, R t u → List.Forall₂ (fun post p => Steady K R post p u) posts ps :=
        fun u htu => hps u (htrans hst htu)
      have again : (joinAll wake fuel ps).Holds K
          (fun out u => R s u ∧ List.Forall₂ (fun post a => post a u) posts out) t :=
        (ih (fun u htu => hwake u (htrans hst htu)) hps').mono fun _ _ h => ⟨htrans hst h.1, h.2⟩
      cases hi : ps[i]? with
      | none => exact again
      | some p =>
        cases p with
        | done => exact again
        | cut => exact again
        | call c next =>
          obtain ⟨hlt, hget⟩ := List.getElem?_eq_some_iff.mp hi
          have hlen := (hps t hst).length_eq
          have hat : ∀ u, R t u → Steady K R (posts.get ⟨i, by omega⟩) (call c next) u := by
            intro u htu
            have := (List.forall₂_iff_get.mp (hps' u htu)).2 i (by omega) hlt
            simpa [hget] using this
          refine ⟨(hat t (hrefl t)).1, ?_⟩
          intro r u hr
          have hstep := (hat t (hrefl t)).2 r u hr
          have hsu := htrans hst hstep.1
          refine (ih (fun v huv => hwake v (htrans hsu huv)) ?_).mono
            fun _ _ h => ⟨htrans hsu h.1, h.2⟩
          intro v huv
          refine List.forall₂_iff_get.mpr ⟨by simpa using hlen, ?_⟩
          intro j hj hj'
          by_cases hij : i = j
          · subst hij
            simpa using hstep.2 v huv
          · have := (List.forall₂_iff_get.mp (hps' v (htrans hstep.1 huv))).2 j hj (by simpa using hj')
            simpa [List.getElem_set_ne hij] using this

end Join

end Program

end Yuke.Shared
