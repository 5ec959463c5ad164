import Yuke.Shared.Program

/-!
# Programs that go on side by side

A tagged run says of each call which program of a family makes it, and a call without a tag belongs
to none of them. The calls of one tag are a run of the program of that tag, whatever the other
programs do meanwhile. `Weaving` is the rule of a program that carries out a family so.
-/

set_option autoImplicit false

namespace Yuke.Shared.Program

variable {Call : Type} {Reply : Call → Type} {α β γ σ ι : Type}

abbrev Entry (Reply : Call → Type) : Type := (c : Call) × Reply c

/-- The program makes the calls of `trace` with their replies, and stands at `q` then. -/
def Goes (p : Program Call Reply α) (trace : List (Entry Reply)) (q : Program Call Reply α) : Prop :=
  Run (fun (_ : Unit) _ _ _ => True) p () trace q ()

/-- Whatever the world replies, the program ends after at most so many calls. -/
def Ends : ℕ → Program Call Reply α → Prop
  | _, done _ => True
  | _, cut => False
  | 0, call _ _ => False
  | n + 1, call _ next => ∀ r, (next r).Ends n

section Goes

variable {p q r : Program Call Reply α} {trace rest : List (Entry Reply)} {entry : Entry Reply}
variable {a : α} {n m : ℕ}

theorem Run.goes {answers : σ → (c : Call) → Reply c → σ → Prop} {s t : σ}
    (h : Run answers p s trace q t) : Goes p trace q := by
  induction h with
  | stay => exact .stay _ _
  | step _ _ ih => exact .step trivial ih

theorem Goes.stay (p : Program Call Reply α) : Goes p [] p := Run.stay p ()

theorem Goes.call {c : Call} {next : Reply c → Program Call Reply α} (r : Reply c)
    (h : Goes (next r) trace q) : Goes (call c next) (⟨c, r⟩ :: trace) q :=
  Run.step trivial h

theorem goes_nil : Goes p [] q ↔ p = q := by
  constructor
  · intro h
    cases h
    rfl
  · intro h
    subst h
    exact .stay p

theorem goes_call {c : Call} {next : Reply c → Program Call Reply α}
    (h : Goes (call c next) (entry :: trace) q) : ∃ r, entry = ⟨c, r⟩ ∧ Goes (next r) trace q := by
  cases h with
  | step _ hrest => exact ⟨_, rfl, hrest⟩

theorem goes_done (h : Goes (done a) trace q) : trace = [] ∧ q = done a := by
  cases h
  exact ⟨rfl, rfl⟩

theorem goes_cut (h : Goes cut trace q) : trace = [] ∧ q = cut := by
  cases h
  exact ⟨rfl, rfl⟩

theorem Goes.append (h : Goes p trace q) (hrest : Goes q rest r) : Goes p (trace ++ rest) r := by
  induction trace generalizing p with
  | nil =>
    rw [goes_nil.mp h]
    exact hrest
  | cons entry trace ih =>
    cases h with
    | step _ hnext => exact (ih hnext).call _

theorem Goes.bind {f : α → Program Call Reply β} (h : Goes p trace q) :
    Goes (p >>= f) trace (q >>= f) := by
  induction trace generalizing p with
  | nil =>
    rw [goes_nil.mp h]
    exact .stay _
  | cons entry trace ih =>
    cases h with
    | step _ hnext => exact (ih hnext).call _

/-- A run of two programs in sequence ends in the first one, or goes on with the second one. -/
theorem goes_bind {f : α → Program Call Reply β} {q : Program Call Reply β}
    (h : Goes (p >>= f) trace q) :
    (∃ p', Goes p trace p' ∧ q = p' >>= f ∧ ∀ a, p' ≠ done a) ∨
      ∃ a first rest, trace = first ++ rest ∧ Goes p first (done a) ∧ Goes (f a) rest q := by
  induction trace generalizing p with
  | nil =>
    have heq := goes_nil.mp h
    subst heq
    cases p with
    | done a => exact .inr ⟨a, [], [], rfl, .stay _, .stay _⟩
    | cut => exact .inl ⟨cut, .stay _, rfl, by simp⟩
    | call c next => exact .inl ⟨call c next, .stay _, rfl, by simp⟩
  | cons entry trace ih =>
    cases p with
    | done a => exact .inr ⟨a, [], entry :: trace, rfl, .stay _, h⟩
    | cut => cases (goes_cut h).1
    | call c next =>
      obtain ⟨r, rfl, hnext⟩ := goes_call h
      rcases ih hnext with ⟨p', hp', hq⟩ | ⟨a, first, rest, rfl, hfirst, hrest⟩
      · exact .inl ⟨p', hp'.call r, hq⟩
      · exact .inr ⟨a, ⟨c, r⟩ :: first, rest, rfl, hfirst.call r, hrest⟩

theorem not_ends_cut : ¬ (cut : Program Call Reply α).Ends n := by
  intro h
  cases n <;> exact h

theorem Ends.mono (h : p.Ends n) (hle : n ≤ m) : p.Ends m := by
  induction p generalizing n m with
  | done => cases m <;> trivial
  | cut => exact (not_ends_cut h).elim
  | call c next ih =>
    cases n with
    | zero => exact h.elim
    | succ n =>
      obtain ⟨m, rfl⟩ : ∃ k, m = k + 1 := ⟨m - 1, by omega⟩
      exact fun r => ih r (h r) (by omega)

theorem Ends.bind {f : α → Program Call Reply β} (h : p.Ends n) (hf : ∀ a, (f a).Ends m) :
    (p >>= f).Ends (n + m) := by
  induction p generalizing n with
  | done a => exact (hf a).mono (by omega)
  | cut => exact (not_ends_cut h).elim
  | call c next ih =>
    cases n with
    | zero => exact h.elim
    | succ n =>
      rw [Nat.add_right_comm]
      exact fun r => ih r (h r)

theorem Ends.goes (h : p.Ends n) (hgoes : Goes p trace q) : trace.length ≤ n ∧ q.Ends n := by
  induction trace generalizing p n with
  | nil =>
    rw [← goes_nil.mp hgoes]
    exact ⟨Nat.zero_le n, h⟩
  | cons entry trace ih =>
    cases hgoes with
    | step _ hnext =>
      cases n with
      | zero => exact h.elim
      | succ n =>
        obtain ⟨hle, hends⟩ := ih (h _) hnext
        exact ⟨Nat.succ_le_succ hle, hends.mono (Nat.le_succ n)⟩

/-- A program with a bound can be brought to its end. -/
theorem Ends.finish (hreply : ∀ c, Nonempty (Reply c)) (h : p.Ends n) :
    ∃ trace a, Goes p trace (done a) := by
  induction p generalizing n with
  | done a => exact ⟨[], a, .stay _⟩
  | cut => exact (not_ends_cut h).elim
  | call c next ih =>
    cases n with
    | zero => exact h.elim
    | succ n =>
      obtain ⟨r⟩ := hreply c
      obtain ⟨trace, a, hgoes⟩ := ih r (h r)
      exact ⟨⟨c, r⟩ :: trace, a, hgoes.call r⟩

end Goes

/-! ## Tagged runs -/

/-- No two neighbours lack a tag. -/
def Dense (tagged : List (Option ι × Entry Reply)) : Prop :=
  tagged.IsChain fun a b => a.1.isSome ∨ b.1.isSome

theorem dense_length_le : ∀ (tagged : List (Option ι × Entry Reply)), Dense tagged →
    tagged.length ≤ 2 * (tagged.countP fun entry => entry.1.isSome) + 1
  | [], _ => Nat.zero_le _
  | [_], _ => Nat.le_add_left _ _
  | (some _, _) :: second :: rest, h => by
    have hrest := dense_length_le (second :: rest) h.tail
    simp only [List.countP_cons, Option.isSome_some, if_true, List.length_cons] at hrest ⊢
    omega
  | (none, _) :: (some _, _) :: rest, h => by
    have hrest := dense_length_le rest h.tail.tail
    simp only [List.countP_cons, Option.isSome_some, if_true, List.length_cons] at hrest ⊢
    omega
  | (none, _) :: (none, _) :: rest, h => by
    have hfirst := (List.isChain_cons_cons.mp h).1
    simp at hfirst

variable [DecidableEq ι]

/-- The calls of one tag. -/
def own (i : ι) (tagged : List (Option ι × Entry Reply)) : List (Entry Reply) :=
  tagged.filterMap fun entry => if entry.1 = some i then some entry.2 else none

/-- Each program goes through the calls of its tag. -/
def Weave (ps : ι → Program Call Reply α) (tagged : List (Option ι × Entry Reply))
    (qs : ι → Program Call Reply α) : Prop :=
  ∀ i, Goes (ps i) (own i tagged) (qs i)

section Weave

variable {ps qs rs : ι → Program Call Reply α} {i j : ι} {entry : Entry Reply} {tags : List ι}
variable {tagged rest : List (Option ι × Entry Reply)} {trace : List (Entry Reply)} {n : ℕ}

@[simp] theorem own_append : own i (tagged ++ rest) = own i tagged ++ own i rest :=
  List.filterMap_append

@[simp] theorem own_cons_none : own i ((none, entry) :: tagged) = own i tagged := by
  simp [own]

@[simp] theorem own_cons_self : own i ((some i, entry) :: tagged) = entry :: own i tagged := by
  simp [own]

theorem own_cons_ne (h : j ≠ i) : own i ((some j, entry) :: tagged) = own i tagged := by
  simp [own, h]

theorem own_map_self : own i (trace.map (some i, ·)) = trace := by
  induction trace with
  | nil => rfl
  | cons entry trace ih => rw [List.map_cons, own_cons_self, ih]

theorem mem_own : entry ∈ own i tagged ↔ (some i, entry) ∈ tagged := by
  unfold own
  rw [List.mem_filterMap]
  constructor
  · rintro ⟨⟨tag, found⟩, hmem, heq⟩
    split at heq
    · rename_i htag
      cases htag
      cases heq
      exact hmem
    · cases heq
  · intro hmem
    exact ⟨_, hmem, if_pos rfl⟩

theorem own_eq_nil (h : ∀ entry ∈ tagged, entry.1 ≠ some i) : own i tagged = [] := by
  apply List.eq_nil_iff_forall_not_mem.mpr
  intro entry hentry
  exact h _ (mem_own.mp hentry) rfl

/-- Each call with a tag counts for one program. -/
theorem countP_own (p : Entry Reply → Bool) (hnodup : tags.Nodup)
    (htags : ∀ entry ∈ tagged, ∀ i, entry.1 = some i → i ∈ tags) :
    (tagged.countP fun entry => entry.1.isSome && p entry.2) =
      (tags.map fun i => (own i tagged).countP p).sum := by
  induction tagged with
  | nil => simp [own]
  | cons first tagged ih =>
    obtain ⟨tag, entry⟩ := first
    have hrest := ih fun entry hentry => htags entry (List.mem_cons_of_mem _ hentry)
    cases tag with
    | none => simpa using hrest
    | some i =>
      have hi := htags _ List.mem_cons_self i rfl
      have hsplit : (fun j => (own j ((some i, entry) :: tagged)).countP p) =
          fun j => (own j tagged).countP p + if j = i then (if p entry then 1 else 0) else 0 := by
        funext j
        by_cases hij : i = j
        · subst hij
          rw [own_cons_self, List.countP_cons, if_pos rfl]
        · rw [own_cons_ne hij, if_neg (Ne.symm hij), Nat.add_zero]
      have hone : (tags.map fun j => if j = i then (if p entry then 1 else 0) else 0).sum =
          if p entry then 1 else 0 := by
        rw [List.sum_map_eq_nsmul_single i _ fun j hj _ => if_neg hj,
          List.count_eq_one_of_mem hnodup hi, one_nsmul, if_pos rfl]
      rw [hsplit, List.sum_map_add, hone, ← hrest, List.countP_cons]
      simp

theorem Weave.stay (ps : ι → Program Call Reply α) : Weave ps [] ps := fun i => .stay (ps i)

theorem Weave.append (h : Weave ps tagged qs) (hrest : Weave qs rest rs) :
    Weave ps (tagged ++ rest) rs := by
  intro i
  rw [own_append]
  exact (h i).append (hrest i)

theorem Weave.skip (h : Weave ps tagged qs) : Weave ps ((none, entry) :: tagged) qs := by
  intro i
  rw [own_cons_none]
  exact h i

theorem Weave.frame (h : Weave ps tagged qs) (htags : ∀ entry ∈ tagged, entry.1 ≠ some i) :
    qs i = ps i := by
  have hi := h i
  rw [own_eq_nil htags, goes_nil] at hi
  exact hi.symm

/-- The other programs wait while one of them makes the calls of `trace`. -/
theorem Weave.alone {q : Program Call Reply α} (h : Goes (ps i) trace q) :
    Weave ps (trace.map (some i, ·)) (Function.update ps i q) := by
  intro j
  by_cases hij : i = j
  · subst hij
    rw [own_map_self, Function.update_self]
    exact h
  · have hnone : own j (trace.map (some i, ·)) = [] := by
      apply own_eq_nil
      intro entry hentry heq
      obtain ⟨_, _, rfl⟩ := List.mem_map.mp hentry
      exact hij (Option.some.inj heq)
    rw [hnone, Function.update_of_ne (Ne.symm hij)]
    exact .stay _

theorem Weave.step (h : Weave ps ((some i, entry) :: tagged) qs) :
    ∃ c next r, ps i = call c next ∧ entry = ⟨c, r⟩ ∧
      Weave (Function.update ps i (next r)) tagged qs := by
  have hi := h i
  rw [own_cons_self] at hi
  cases hps : ps i with
  | done a =>
    rw [hps] at hi
    cases (goes_done hi).1
  | cut =>
    rw [hps] at hi
    cases (goes_cut hi).1
  | call c next =>
    rw [hps] at hi
    obtain ⟨r, rfl, hnext⟩ := goes_call hi
    refine ⟨c, next, r, rfl, rfl, ?_⟩
    intro j
    by_cases hij : i = j
    · subst hij
      rw [Function.update_self]
      exact hnext
    · have hj := h j
      rw [own_cons_ne hij] at hj
      rwa [Function.update_of_ne (Ne.symm hij)]

theorem Weave.length_le (h : Weave ps tagged qs) (hnodup : tags.Nodup)
    (htags : ∀ entry ∈ tagged, ∀ i, entry.1 = some i → i ∈ tags) (hdense : Dense tagged)
    (hends : ∀ i ∈ tags, (ps i).Ends n) : tagged.length ≤ 2 * (n * tags.length) + 1 := by
  have hsum : (tagged.countP fun entry => entry.1.isSome) =
      (tags.map fun i => (own i tagged).countP fun _ => true).sum := by
    rw [← countP_own _ hnodup htags]
    simp
  have hle := List.sum_le_card_nsmul (tags.map fun i => (own i tagged).countP fun _ => true) n (by
    intro k hk
    obtain ⟨i, hi, rfl⟩ := List.mem_map.mp hk
    exact List.countP_le_length.trans ((hends i hi).goes (h i)).1)
  rw [← hsum, List.length_map, smul_eq_mul, Nat.mul_comm] at hle
  have hlength := dense_length_le tagged hdense
  omega

end Weave

/-! ## Programs that carry out a family -/

section Rules

variable {free : Call → Prop} {may : ι → ι → Prop} {enough : Prop} {tags more : List ι} {n : ℕ}
variable {ps qs rs : ι → Program Call Reply α} {trace : List (Entry Reply)} {i : ι}

/-- A run that carries out the programs of `tags`. A call of `j` can come after one of `i` where
`may i j` holds. -/
structure Woven (free : Call → Prop) (may : ι → ι → Prop) (enough : Prop) (tags : List ι)
    (ps : ι → Program Call Reply α) (trace : List (Entry Reply)) (q : Program Call Reply β)
    (post : β → (ι → Program Call Reply α) → Prop) (tagged : List (Option ι × Entry Reply))
    (qs : ι → Program Call Reply α) : Prop where
  ascribed : tagged.map Prod.snd = trace
  weave : Weave ps tagged qs
  tags : ∀ entry ∈ tagged, (entry.1 = none ∧ free entry.2.1) ∨ ∃ i ∈ tags, entry.1 = some i
  order : tagged.Pairwise fun a b => ∀ i j, a.1 = some i → b.1 = some j → may i j
  out : ∀ a, q = done a → post a qs
  live : enough → Dense tagged → q ≠ cut

/-- Each run of the program carries out the programs of `tags`, and at its end `post` holds of the
value and of the programs. -/
def Weaving (free : Call → Prop) (may : ι → ι → Prop) (enough : Prop) (tags : List ι)
    (ps : ι → Program Call Reply α) (p : Program Call Reply β)
    (post : β → (ι → Program Call Reply α) → Prop) : Prop :=
  ∀ trace q, Goes p trace q → ∃ tagged qs, Woven free may enough tags ps trace q post tagged qs

theorem Woven.mem {q : Program Call Reply β} {post : β → (ι → Program Call Reply α) → Prop}
    {tagged : List (Option ι × Entry Reply)} (h : Woven free may enough tags ps trace q post tagged qs)
    {entry : Option ι × Entry Reply} (hentry : entry ∈ tagged) (htag : entry.1 = some i) :
    i ∈ tags := by
  rcases h.tags entry hentry with ⟨hnone, _⟩ | ⟨j, hj, hsome⟩
  · rw [hnone] at htag
    cases htag
  · rw [hsome] at htag
    cases htag
    exact hj

theorem weaving_done {post : β → (ι → Program Call Reply α) → Prop} {a : β} (h : post a ps) :
    Weaving free may enough [] ps (done a) post := by
  intro trace q hgoes
  obtain ⟨rfl, rfl⟩ := goes_done hgoes
  refine ⟨[], ps, rfl, .stay ps, by simp, .nil, ?_, by simp⟩
  intro b hb
  cases hb
  exact h

/-- The programs of other tags stay where they are. -/
theorem Weaving.frame {p : Program Call Reply β} {post : β → (ι → Program Call Reply α) → Prop}
    (h : Weaving free may enough tags ps p post) :
    Weaving free may enough tags ps p fun a qs => post a qs ∧ ∀ i ∉ tags, qs i = ps i := by
  intro trace q hgoes
  obtain ⟨tagged, qs, hwoven⟩ := h trace q hgoes
  refine ⟨tagged, qs, { hwoven with out := ?_ }⟩
  intro a ha
  refine ⟨hwoven.out a ha, ?_⟩
  intro i hi
  exact hwoven.weave.frame fun entry hentry htag => hi (hwoven.mem hentry htag)

theorem Weaving.bind {p : Program Call Reply β} {f : β → Program Call Reply γ}
    {mid : β → (ι → Program Call Reply α) → Prop} {post : γ → (ι → Program Call Reply α) → Prop}
    (h : Weaving free may enough tags ps p mid) (hmay : ∀ i ∈ tags, ∀ j ∈ more, may i j)
    (hf : ∀ a qs, mid a qs → Weaving free may enough more qs (f a) post) :
    Weaving free may enough (tags ++ more) ps (p >>= f) post := by
  intro trace q hgoes
  rcases goes_bind hgoes with ⟨p', hp, rfl, hopen⟩ | ⟨a, first, rest, rfl, hfirst, hrest⟩
  · obtain ⟨tagged, qs, hwoven⟩ := h trace p' hp
    refine ⟨tagged, qs, hwoven.ascribed, hwoven.weave, ?_, hwoven.order, ?_, ?_⟩
    · intro entry hentry
      exact (hwoven.tags entry hentry).imp_right fun ⟨i, hi, htag⟩ =>
        ⟨i, List.mem_append_left _ hi, htag⟩
    · intro b hb
      cases p' with
      | done a => exact (hopen a rfl).elim
      | call => cases hb
      | cut => cases hb
    · intro henough hdense hcut
      cases p' with
      | done a => exact hopen a rfl
      | call => cases hcut
      | cut => exact hwoven.live henough hdense rfl
  · obtain ⟨tagged, qs, hwoven⟩ := h first _ hfirst
    obtain ⟨later, rs, hlater⟩ := hf a qs (hwoven.out a rfl) rest q hrest
    refine ⟨tagged ++ later, rs, ?_, hwoven.weave.append hlater.weave, ?_, ?_, hlater.out, ?_⟩
    · rw [List.map_append, hwoven.ascribed, hlater.ascribed]
    · intro entry hentry
      rcases List.mem_append.mp hentry with hentry | hentry
      · exact (hwoven.tags entry hentry).imp_right fun ⟨i, hi, htag⟩ =>
          ⟨i, List.mem_append_left _ hi, htag⟩
      · exact (hlater.tags entry hentry).imp_right fun ⟨i, hi, htag⟩ =>
          ⟨i, List.mem_append_right _ hi, htag⟩
    · refine List.pairwise_append.mpr ⟨hwoven.order, hlater.order, ?_⟩
      intro a ha b hb i j hi hj
      exact hmay i (hwoven.mem ha hi) j (hlater.mem hb hj)
    · intro henough hdense
      exact hlater.live henough hdense.right_of_append

theorem Weaving.weaken {p : Program Call Reply β} {post : β → (ι → Program Call Reply α) → Prop}
    (h : Weaving free may enough tags ps p post) (hsub : tags ⊆ more) :
    Weaving free may enough more ps p post := by
  intro trace q hgoes
  obtain ⟨tagged, qs, hwoven⟩ := h trace q hgoes
  refine ⟨tagged, qs, { hwoven with tags := ?_ }⟩
  intro entry hentry
  exact (hwoven.tags entry hentry).imp_right fun ⟨i, hi, htag⟩ => ⟨i, hsub hi, htag⟩

theorem Weaving.map {p : Program Call Reply β} {f : β → γ}
    {mid : β → (ι → Program Call Reply α) → Prop} {post : γ → (ι → Program Call Reply α) → Prop}
    (h : Weaving free may enough tags ps p mid) (hf : ∀ a qs, mid a qs → post (f a) qs) :
    Weaving free may enough tags ps (p >>= fun a => done (f a)) post := by
  have hboth : Weaving free may enough (tags ++ []) ps (p >>= fun a => done (f a)) post :=
    h.bind (by simp) fun a qs hmid => weaving_done (hf a qs hmid)
  rwa [List.append_nil] at hboth

/-- A program that is the next part of one program of the family. -/
theorem weaving_alone {p : Program Call Reply β} {f : β → Program Call Reply α}
    (hps : ps i = p >>= f) (hmay : may i i) (hends : p.Ends n) :
    Weaving free may enough [i] ps p fun a qs => qs = Function.update ps i (f a) := by
  intro trace q hgoes
  have hi : Goes (ps i) trace (q >>= f) := by
    rw [hps]
    exact hgoes.bind
  refine ⟨_, _, by simp, Weave.alone hi, ?_, ?_, ?_, ?_⟩
  · intro entry hentry
    obtain ⟨_, _, rfl⟩ := List.mem_map.mp hentry
    exact .inr ⟨i, List.mem_singleton_self i, rfl⟩
  · apply List.pairwise_of_forall_mem_list
    intro a ha b hb j k hj hk
    obtain ⟨_, _, rfl⟩ := List.mem_map.mp ha
    obtain ⟨_, _, rfl⟩ := List.mem_map.mp hb
    cases hj
    cases hk
    exact hmay
  · intro a ha
    rw [ha]
    rfl
  · intro _ _ hcut
    rw [hcut] at hgoes
    exact not_ends_cut (hends.goes hgoes).2

end Rules

/-! ## A group of programs that run together -/

theorem values_eq_some {ps : List (Program Call Reply α)} {out : List α} :
    values ps = some out ↔ ps = out.map done := by
  induction ps generalizing out with
  | nil => cases out <;> simp [values]
  | cons p ps ih =>
    cases p with
    | done a =>
      cases out with
      | nil => simp [values]
      | cons b out => simp [values, Option.map_eq_some_iff, ih, and_comm]
    | call => cases out <;> simp [values]
    | cut => cases out <;> simp [values]

section Join

variable {w : Call} {pick : Reply w → ℕ} {tags : List ι} {ps qs : ι → Program Call Reply α}
variable {trace : List (Entry Reply)} {q : Program Call Reply (List α)} {fuel n : ℕ}

theorem set_map (hnodup : tags.Nodup) {k : ℕ} (hk : k < tags.length) (p : Program Call Reply α) :
    (tags.map ps).set k p = tags.map (Function.update ps tags[k] p) := by
  apply List.ext_getElem
  · simp
  · intro j hj _
    rw [List.getElem_map, List.getElem_set]
    have hjlen : j < tags.length := by simpa using hj
    by_cases hkj : k = j
    · subst hkj
      rw [if_pos rfl, Function.update_self]
    · have hne : tags[j] ≠ tags[k] := by
        intro heq
        exact hkj ((hnodup.getElem_inj_iff).mp heq).symm
      rw [if_neg hkj, Function.update_of_ne hne, List.getElem_map]

/-- A group stands at its values, or waits, or wakes a program. A program that it wakes makes its
next call, unless it cannot go on. -/
theorem goes_joinAll {ps : List (Program Call Reply α)}
    (h : Goes (joinAll (call w fun r => done (pick r)) (fuel + 1) ps) trace q) :
    (∃ out, trace = [] ∧ q = done out ∧ ps = out.map done) ∨
    ((∃ c next, q = call c next) ∧ (trace = [] ∨ ∃ r, trace = [⟨w, r⟩])) ∨
    ∃ r rest, trace = ⟨w, r⟩ :: rest ∧
      (Goes (joinAll (call w fun r => done (pick r)) fuel ps) rest q ∨
        ∃ k c next reply later, ps[k]? = some (call c next) ∧ rest = ⟨c, reply⟩ :: later ∧
          Goes (joinAll (call w fun r => done (pick r)) fuel (ps.set k (next reply))) later q) := by
  unfold joinAll at h
  cases hvalues : values ps with
  | some out =>
    rw [hvalues] at h
    obtain ⟨rfl, rfl⟩ := goes_done h
    exact .inl ⟨out, rfl, rfl, values_eq_some.mp hvalues⟩
  | none =>
    rw [hvalues] at h
    right
    cases trace with
    | nil => exact .inl ⟨⟨_, _, (goes_nil.mp h).symm⟩, .inl rfl⟩
    | cons entry rest =>
      obtain ⟨r, rfl, hnext⟩ := goes_call h
      change Goes (done (pick r) >>= _) rest q at hnext
      rw [done_bind] at hnext
      cases hget : ps[pick r]? with
      | none =>
        rw [hget] at hnext
        exact .inr ⟨r, rest, rfl, .inl hnext⟩
      | some p =>
        rw [hget] at hnext
        cases p with
        | done => exact .inr ⟨r, rest, rfl, .inl hnext⟩
        | cut => exact .inr ⟨r, rest, rfl, .inl hnext⟩
        | call c next =>
          cases rest with
          | nil => exact .inl ⟨⟨_, _, (goes_nil.mp hnext).symm⟩, .inr ⟨r, rfl⟩⟩
          | cons entry later =>
            obtain ⟨reply, rfl, hlater⟩ := goes_call hnext
            exact .inr ⟨r, _, rfl, .inr ⟨_, c, next, reply, later, hget, rfl, hlater⟩⟩

theorem joinAll_weaves (hnodup : tags.Nodup)
    (h : Goes (joinAll (call w fun r => done (pick r)) fuel (tags.map ps)) trace q) :
    ∃ tagged qs, tagged.map Prod.snd = trace ∧ Weave ps tagged qs ∧
      (∀ entry ∈ tagged, (entry.1 = none ∧ entry.2.1 = w) ∨ ∃ i ∈ tags, entry.1 = some i) ∧
      (∀ out, q = done out → tags.map qs = out.map done) ∧ (q = cut → fuel ≤ tagged.length) := by
  induction fuel generalizing ps trace with
  | zero =>
    obtain ⟨rfl, rfl⟩ := goes_cut h
    exact ⟨[], ps, rfl, .stay ps, by simp, by simp, fun _ => Nat.zero_le _⟩
  | succ fuel ih =>
    rcases goes_joinAll h with ⟨out, rfl, rfl, hout⟩ | ⟨⟨c, next, rfl⟩, rfl | ⟨r, rfl⟩⟩ |
      ⟨r, rest, rfl, hidle | ⟨k, c, next, reply, later, hget, rfl, hlater⟩⟩
    · refine ⟨[], ps, rfl, .stay ps, by simp, ?_, by simp⟩
      intro found hfound
      cases hfound
      exact hout
    · exact ⟨[], ps, rfl, .stay ps, by simp, by simp, by simp⟩
    · exact ⟨[(none, ⟨w, r⟩)], ps, rfl, (Weave.stay ps).skip, by simp, by simp, by simp⟩
    · obtain ⟨tagged, qs, rfl, hweave, htags, hout, hcut⟩ := ih hidle
      refine ⟨(none, ⟨w, r⟩) :: tagged, qs, rfl, hweave.skip, ?_, hout, ?_⟩
      · exact List.forall_mem_cons.mpr ⟨.inl ⟨rfl, rfl⟩, htags⟩
      · intro heq
        exact Nat.succ_le_succ (hcut heq)
    · obtain ⟨hlen, hps⟩ := List.getElem?_eq_some_iff.mp hget
      have hk : k < tags.length := by simpa using hlen
      rw [List.getElem_map] at hps
      rw [set_map hnodup hk] at hlater
      obtain ⟨tagged, qs, rfl, hweave, htags, hout, hcut⟩ := ih hlater
      have hgoes : Goes (ps tags[k]) [⟨c, reply⟩] (next reply) := by
        rw [hps]
        exact (Goes.stay _).call reply
      refine ⟨(none, ⟨w, r⟩) :: (some tags[k], ⟨c, reply⟩) :: tagged, qs, rfl,
        ((Weave.alone hgoes).append hweave).skip, ?_, hout, ?_⟩
      · exact List.forall_mem_cons.mpr ⟨.inl ⟨rfl, rfl⟩,
          List.forall_mem_cons.mpr ⟨.inr ⟨_, List.getElem_mem hk, rfl⟩, htags⟩⟩
      · intro heq
        exact Nat.succ_le_succ ((hcut heq).trans (Nat.le_succ _))

theorem weaving_joinAll {free : Call → Prop} {may : ι → ι → Prop} {enough : Prop}
    (hnodup : tags.Nodup) (hfree : free w) (hmay : ∀ i ∈ tags, ∀ j ∈ tags, may i j)
    (hends : ∀ i ∈ tags, (ps i).Ends n) (hfuel : enough → 2 * (n * tags.length) + 1 < fuel) :
    Weaving free may enough tags ps
      (joinAll (call w fun r => done (pick r)) fuel (tags.map ps))
      fun out qs => tags.map qs = out.map done := by
  intro trace q hgoes
  obtain ⟨tagged, qs, hascribed, hweave, htags, hout, hcut⟩ := joinAll_weaves hnodup hgoes
  have hmem : ∀ entry ∈ tagged, ∀ i, entry.1 = some i → i ∈ tags := by
    intro entry hentry i hi
    rcases htags entry hentry with ⟨hnone, _⟩ | ⟨j, hj, hsome⟩
    · rw [hnone] at hi
      cases hi
    · rw [hsome] at hi
      cases hi
      exact hj
  refine ⟨tagged, qs, hascribed, hweave, ?_, ?_, hout, ?_⟩
  · intro entry hentry
    refine (htags entry hentry).imp_left ?_
    intro hwake
    exact ⟨hwake.1, hwake.2 ▸ hfree⟩
  · apply List.pairwise_of_forall_mem_list
    intro a ha b hb i j hi hj
    exact hmay i (hmem a ha i hi) j (hmem b hb j hj)
  · intro henough hdense heq
    have hle := hweave.length_le hnodup hmem hdense hends
    have := hcut heq
    have := hfuel henough
    omega

/-- A group can go on in each order in which its programs can go on. -/
theorem weave_joinAll (hpick : Function.Surjective pick) (hnodup : tags.Nodup)
    {tagged : List (Option ι × Entry Reply)} {out : List α} (hweave : Weave ps tagged qs)
    (htags : ∀ entry ∈ tagged, ∃ i ∈ tags, entry.1 = some i) (hout : tags.map qs = out.map done)
    (hfuel : tagged.length < fuel) :
    ∃ full : List (Option ι × Entry Reply), full.filter (fun entry => entry.1.isSome) = tagged ∧
      Goes (joinAll (call w fun r => done (pick r)) fuel (tags.map ps)) (full.map Prod.snd)
        (done out) := by
  induction tagged generalizing ps fuel with
  | nil =>
    have heq : ps = qs := funext fun i => goes_nil.mp (hweave i)
    subst heq
    obtain ⟨fuel, rfl⟩ : ∃ n, fuel = n + 1 := ⟨fuel - 1, by simp at hfuel; omega⟩
    refine ⟨[], rfl, ?_⟩
    unfold joinAll
    rw [values_eq_some.mpr hout]
    exact .stay _
  | cons first tagged ih =>
    obtain ⟨tag, entry⟩ := first
    obtain ⟨⟨i, hi, htag⟩, hrest⟩ := List.forall_mem_cons.mp htags
    change tag = some i at htag
    subst htag
    obtain ⟨c, next, r, hps, rfl, hlater⟩ := hweave.step
    obtain ⟨k, hk, rfl⟩ := List.getElem_of_mem hi
    obtain ⟨fuel, rfl⟩ : ∃ n, fuel = n + 1 := ⟨fuel - 1, by simp at hfuel; omega⟩
    obtain ⟨full, hfull, hgoes⟩ := ih hlater hrest (by simpa using hfuel)
    obtain ⟨answer, hanswer⟩ := hpick k
    refine ⟨(none, ⟨w, answer⟩) :: (some tags[k], ⟨c, r⟩) :: full, by simp [hfull], ?_⟩
    have hget : (tags.map ps)[k]? = some (call c next) := by
      rw [List.getElem?_map, List.getElem?_eq_getElem hk, Option.map_some, hps]
    have hopen : values (tags.map ps) = none := by
      cases hvalues : values (tags.map ps) with
      | none => rfl
      | some found =>
        rw [values_eq_some.mp hvalues, List.getElem?_map, Option.map_eq_some_iff] at hget
        obtain ⟨_, _, hdone⟩ := hget
        cases hdone
    unfold joinAll
    rw [hopen]
    refine Goes.call answer ?_
    change Goes (done (pick answer) >>= _) _ _
    rw [done_bind, hanswer, hget]
    refine Goes.call r ?_
    rw [set_map hnodup hk]
    exact hgoes

end Join

end Yuke.Shared.Program
