import Yuke.Js.Fetch

/-!
# Runs of a fetch

A request after a change of the origin has no `authorization` header, and a request after a change of
the method has no body. Each answer is returned or closed.
-/

set_option autoImplicit false

namespace Yuke.Js.Fetch

variable {urls : UrlParser} {answers : ℕ → Answer} {redirect : Redirect}

/-- The fetch follows answer `n` to a request with the variables `next`. -/
structure Follows (urls : UrlParser) (answers : ℕ → Answer) (redirect : Redirect) (n : ℕ)
    (hop next : Hop) (head : HttpHead) (location : String) (current target : Url) : Prop where
  answer : answers n = .head head
  status : head.status ∈ REDIRECT_STATUSES
  mode : redirect = .follow
  single : locations head = [location]
  parsed : urls.parse location (some hop.url) = some target
  http : target.protocol = "http:" ∨ target.protocol = "https:"
  here : urls.parse hop.url none = some current
  rewritten : next = (hop.changed head.status).moved current target

structure Ends (answers : ℕ → Answer) (n : ℕ) (hop : Hop) (fetched : Fetched) : Prop where
  sent : fetched.sent = [] ∧ answers n = .aborted ∨ fetched.sent = [hop.sent]
  closed : ∀ head, answers n = .head head →
    n ∈ fetched.closed ∨ ∃ response, fetched.outcome = .response n response
  returned : ∀ m response, fetched.outcome = .response m response →
    m = n ∧ fetched.sent = [hop.sent]

theorem ends_refused (hop : Hop) (n : ℕ) (error : FetchError) :
    Ends answers n hop (refused hop n error) where
  sent := .inr rfl
  closed _ _ := .inl List.mem_cons_self
  returned _ _ hresponse := Outcome.noConfusion hresponse

theorem ends_fetchedResponse (head : HttpHead) (hop : Hop) (n : ℕ) :
    Ends answers n hop (fetchedResponse urls head hop n) where
  sent := .inr rfl
  closed _ _ := .inr ⟨_, rfl⟩
  returned _ _ hresponse := ⟨(Outcome.response.inj hresponse).1.symm, rfl⟩

theorem loop_cases (left n : ℕ) (hop : Hop) :
    Ends answers n hop (loop urls answers redirect left n hop) ∨
      ∃ fewer next head location current target, left = fewer + 1 ∧
        Follows urls answers redirect n hop next head location current target ∧
        loop urls answers redirect left n hop =
          (loop urls answers redirect fewer (n + 1) next).after hop n := by
  rw [loop]
  split
  next hanswer =>
    left
    refine ⟨.inl ⟨rfl, hanswer⟩, fun head hhead => ?_, fun _ _ hresponse => ?_⟩
    · rw [hanswer] at hhead
      cases hhead
    · cases hresponse
  next hanswer =>
    left
    refine ⟨.inr rfl, fun head hhead => ?_, fun _ _ hresponse => ?_⟩
    · rw [hanswer] at hhead
      cases hhead
    · cases hresponse
  next head hanswer =>
    split
    · exact .inl (ends_fetchedResponse head hop n)
    next hfollow =>
      split
      · exact .inl (ends_refused hop n _)
      next herror =>
        have hstatus : head.status ∈ REDIRECT_STATUSES := by
          by_contra hnot
          exact hfollow (.inl hnot)
        have hmode : redirect = .follow := by
          cases redirect with
          | follow => rfl
          | error => exact absurd rfl herror
          | manual => exact absurd (.inr rfl) hfollow
        split
        · exact .inl (ends_fetchedResponse head hop n)
        next location hlocation =>
          split
          · exact .inl (ends_refused hop n _)
          next fewer =>
            split
            · exact .inl (ends_refused hop n _)
            next target hparse =>
              split
              · exact .inl (ends_refused hop n _)
              next hprotocol =>
                split
                · exact .inl (ends_refused hop n _)
                next current hcurrent =>
                  right
                  refine ⟨fewer, (hop.changed head.status).moved current target, head, location,
                    current, target, rfl, ?_, rfl⟩
                  exact ⟨hanswer, hstatus, hmode, hlocation, hparse, by tauto, hcurrent, rfl⟩
        · exact .inl (ends_refused hop n _)

theorem sent_starts (left n : ℕ) (hop : Hop) :
    (loop urls answers redirect left n hop).sent = [] ∨
      ∃ rest, (loop urls answers redirect left n hop).sent = hop.sent :: rest := by
  rcases @loop_cases urls answers redirect left n hop with
    hends | ⟨fewer, next, _, _, _, _, _, _, hloop⟩
  · rcases hends.sent with ⟨hnone, -⟩ | hone
    · exact .inl hnone
    · exact .inr ⟨[], hone⟩
  · right
    rw [hloop]
    exact ⟨_, rfl⟩

theorem sent_length_le (left n : ℕ) (hop : Hop) :
    (loop urls answers redirect left n hop).sent.length ≤ left + 1 := by
  induction left generalizing n hop with
  | zero =>
    rcases @loop_cases urls answers redirect 0 n hop with
      hends | ⟨fewer, _, _, _, _, _, hleft, _⟩
    · rcases hends.sent with ⟨hnone, -⟩ | hone
      · simp [hnone]
      · simp [hone]
    · omega
  | succ left ih =>
    rcases @loop_cases urls answers redirect (left + 1) n hop
      with hends | ⟨fewer, next, _, _, _, _, hleft, _, hloop⟩
    · rcases hends.sent with ⟨hnone, -⟩ | hone
      · simp [hnone]
      · simp [hone]
    · obtain rfl : left = fewer := by omega
      have hrest := ih (n + 1) next
      rw [hloop]
      simp only [Fetched.after, List.length_cons]
      omega

theorem later_turn (left n : ℕ) (hop : Hop) (i : ℕ) (request : Sent)
    (hrequest : (loop urls answers redirect left n hop).sent[i]? = some request) :
    ∃ fewer later, request = Hop.sent later ∧
      (loop urls answers redirect left n hop).sent.drop i =
        (loop urls answers redirect fewer (n + i) later).sent := by
  induction i generalizing left n hop with
  | zero =>
    refine ⟨left, hop, ?_, rfl⟩
    rcases @sent_starts urls answers redirect left n hop with
      hnone | ⟨rest, hrest⟩
    · simp [hnone] at hrequest
    · simpa [hrest, eq_comm] using hrequest
  | succ i ih =>
    rcases @loop_cases urls answers redirect left n hop with
      hends | ⟨fewer, next, _, _, _, _, _, _, hloop⟩
    · rcases hends.sent with ⟨hnone, -⟩ | hone
      · simp [hnone] at hrequest
      · simp [hone] at hrequest
    · rw [hloop] at hrequest ⊢
      obtain ⟨fewest, later, hlater, hdrop⟩ := ih fewer (n + 1) next hrequest
      refine ⟨fewest, later, hlater, ?_⟩
      rw [show n + (i + 1) = n + 1 + i by omega]
      exact hdrop

theorem sent_all {Kept : Hop → Prop}
    (hkept : ∀ n hop next head location current target,
      Follows urls answers redirect n hop next head location current target → Kept hop → Kept next)
    (left n : ℕ) (hop : Hop) (hhop : Kept hop) :
    ∀ request ∈ (loop urls answers redirect left n hop).sent,
      ∃ later, Kept later ∧ request = Hop.sent later := by
  induction left generalizing n hop with
  | zero =>
    intro request hrequest
    rcases @loop_cases urls answers redirect 0 n hop with
      hends | ⟨fewer, _, _, _, _, _, hleft, _⟩
    · rcases hends.sent with ⟨hnone, -⟩ | hone
      · simp [hnone] at hrequest
      · exact ⟨hop, hhop, by simpa [hone] using hrequest⟩
    · omega
  | succ left ih =>
    intro request hrequest
    rcases @loop_cases urls answers redirect (left + 1) n hop
      with hends | ⟨fewer, next, _, _, _, _, hleft, hfollows, hloop⟩
    · rcases hends.sent with ⟨hnone, -⟩ | hone
      · simp [hnone] at hrequest
      · exact ⟨hop, hhop, by simpa [hone] using hrequest⟩
    · obtain rfl : left = fewer := by omega
      rw [hloop, Fetched.after, List.mem_cons] at hrequest
      rcases hrequest with rfl | hrequest
      · exact ⟨hop, hhop, rfl⟩
      · exact ih (n + 1) next (hkept _ _ _ _ _ _ _ hfollows hhop) request hrequest

theorem sent_pair (left n : ℕ) (hop : Hop) (i : ℕ) (request following : Sent)
    (hrequest : (loop urls answers redirect left n hop).sent[i]? = some request)
    (hfollowing : (loop urls answers redirect left n hop).sent[i + 1]? = some following) :
    ∃ fewer turn next head location current target,
      request = Hop.sent turn ∧ following = Hop.sent next ∧
        Follows urls answers redirect (n + i) turn next head location current target ∧
        (loop urls answers redirect left n hop).sent.drop (i + 1) =
          (loop urls answers redirect fewer (n + i + 1) next).sent := by
  obtain ⟨some_left, turn, hturn, hdrop⟩ := later_turn left n hop i request hrequest
  have hlater : (loop urls answers redirect some_left (n + i) turn).sent[1]? = some following := by
    rw [← hdrop, List.getElem?_drop]
    exact hfollowing
  have hdrop' : (loop urls answers redirect left n hop).sent.drop (i + 1) =
      (loop urls answers redirect some_left (n + i) turn).sent.drop 1 := by
    rw [← hdrop, List.drop_drop, Nat.add_comm]
  rcases @loop_cases urls answers redirect some_left (n + i) turn
    with hends | ⟨fewer, next, head, location, current, target, _, hfollows, hloop⟩
  · rcases hends.sent with ⟨hnone, -⟩ | hone
    · simp [hnone] at hlater
    · simp [hone] at hlater
  · refine ⟨fewer, turn, next, head, location, current, target, hturn, ?_, hfollows, ?_⟩
    · rw [hloop] at hlater
      rcases @sent_starts urls answers redirect fewer
        (n + i + 1) next with hnone | ⟨rest, hrest⟩
      · simp [Fetched.after, hnone] at hlater
      · simpa [Fetched.after, hrest, eq_comm] using hlater
    · rw [hdrop', hloop]
      rfl

theorem answered (left n : ℕ) (hop : Hop) (i : ℕ) (head : HttpHead)
    (hi : i < (loop urls answers redirect left n hop).sent.length)
    (hhead : answers (n + i) = .head head) :
    n + i ∈ (loop urls answers redirect left n hop).closed ∨
      ∃ response, (loop urls answers redirect left n hop).outcome =
        .response (n + i) response := by
  induction i generalizing left n hop with
  | zero =>
    rcases @loop_cases urls answers redirect left n hop with
      hends | ⟨fewer, next, _, _, _, _, _, _, hloop⟩
    · exact hends.closed head hhead
    · left
      rw [hloop]
      exact List.mem_cons_self
  | succ i ih =>
    rcases @loop_cases urls answers redirect left n hop with
      hends | ⟨fewer, next, _, _, _, _, _, _, hloop⟩
    · rcases hends.sent with ⟨hnone, -⟩ | hone
      · simp [hnone] at hi
      · simp [hone] at hi
    · rw [hloop] at hi ⊢
      rw [show n + (i + 1) = n + 1 + i by omega] at hhead ⊢
      simp only [Fetched.after, List.length_cons, Nat.add_lt_add_iff_right] at hi
      rcases ih fewer (n + 1) next hi hhead with hclosed | hreturned
      · exact .inl (List.mem_cons_of_mem n hclosed)
      · exact .inr hreturned

theorem returned_last (left n : ℕ) (hop : Hop) (m : ℕ) (response : Response)
    (hresponse : (loop urls answers redirect left n hop).outcome = .response m response) :
    m + 1 = n + (loop urls answers redirect left n hop).sent.length := by
  induction left generalizing n hop with
  | zero =>
    rcases @loop_cases urls answers redirect 0 n hop with
      hends | ⟨fewer, _, _, _, _, _, hleft, _⟩
    · obtain ⟨rfl, hone⟩ := hends.returned m response hresponse
      rw [hone]
      rfl
    · omega
  | succ left ih =>
    rcases @loop_cases urls answers redirect (left + 1) n hop
      with hends | ⟨fewer, next, _, _, _, _, hleft, _, hloop⟩
    · obtain ⟨rfl, hone⟩ := hends.returned m response hresponse
      rw [hone]
      rfl
    · obtain rfl : left = fewer := by omega
      rw [hloop] at hresponse ⊢
      have hlast := ih (n + 1) next hresponse
      simp only [Fetched.after, List.length_cons]
      omega

def Dropped (hop : Hop) : Prop :=
  hop.body = [] ∧ ∀ pair ∈ hop.headers, pair.1.toLower ∉ BODY_HEADERS

def Unauthorized (hop : Hop) : Prop :=
  withoutAuthorization hop.headers = hop.headers

theorem withoutAuthorization_twice (headers : List Header) :
    withoutAuthorization (withoutAuthorization headers) = withoutAuthorization headers := by
  simp [withoutAuthorization, List.filter_filter]

theorem withoutAuthorization_withoutBodyHeaders (headers : List Header) :
    withoutAuthorization (withoutBodyHeaders headers) =
      withoutBodyHeaders (withoutAuthorization headers) := by
  simp [withoutAuthorization, withoutBodyHeaders, List.filter_filter, Bool.and_comm]

theorem moved_headers (hop : Hop) (current target : Url) :
    (hop.moved current target).headers = hop.headers ∨
      (hop.moved current target).headers = withoutAuthorization hop.headers := by
  unfold Hop.moved
  split
  · exact .inr (by simp_all)
  · exact .inl (by simp_all)

theorem moved_headers_subset (hop : Hop) (current target : Url) :
    (hop.moved current target).headers ⊆ hop.headers := by
  intro pair hpair
  rcases moved_headers hop current target with hheaders | hheaders
  · exact hheaders ▸ hpair
  · rw [hheaders] at hpair
    exact (List.mem_filter.mp hpair).1

theorem changed_cases (hop : Hop) (status : ℕ) :
    hop.changed status = hop ∨
      (hop.changed status).method = "GET" ∧ hop.method ≠ "GET" ∧ Dropped (hop.changed status) ∧
        (hop.changed status).headers = withoutBodyHeaders hop.headers := by
  unfold Hop.changed
  split
  next hchanges =>
    right
    refine ⟨rfl, ?_, ⟨rfl, ?_⟩, rfl⟩
    · intro hget
      simp [changesMethod, hget] at hchanges
    · intro pair hpair
      simpa using (List.mem_filter.mp hpair).2
  · exact .inl rfl

theorem dropped_step (n : ℕ) (hop next : Hop) (head : HttpHead) (location : String)
    (current target : Url)
    (hfollows : Follows urls answers redirect n hop next head location current target)
    (hhop : Dropped hop) : Dropped next := by
  rw [hfollows.rewritten]
  have hchanged : Dropped (hop.changed head.status) := by
    rcases changed_cases hop head.status with hsame | ⟨-, -, hdropped, -⟩
    · rw [hsame]
      exact hhop
    · exact hdropped
  refine ⟨hchanged.1, fun pair hpair => hchanged.2 pair ?_⟩
  exact moved_headers_subset _ current target hpair

theorem unauthorized_step (n : ℕ) (hop next : Hop) (head : HttpHead) (location : String)
    (current target : Url)
    (hfollows : Follows urls answers redirect n hop next head location current target)
    (hhop : Unauthorized hop) : Unauthorized next := by
  rw [hfollows.rewritten]
  have hchanged : Unauthorized (hop.changed head.status) := by
    rcases changed_cases hop head.status with hsame | ⟨-, -, -, hheaders⟩
    · rw [hsame]
      exact hhop
    · rw [Unauthorized, hheaders, withoutAuthorization_withoutBodyHeaders, hhop]
  unfold Unauthorized
  rcases moved_headers (hop.changed head.status) current target with hheaders | hheaders
  · rw [hheaders]
    exact hchanged
  · rw [hheaders, withoutAuthorization_twice]

def Kept (method : String) (body : List UInt8) (hop : Hop) : Prop :=
  hop.method = method ∧ hop.body = body ∨ hop.method = "GET" ∧ method ≠ "GET" ∧ Dropped hop

theorem kept_step (method : String) (body : List UInt8) (n : ℕ) (hop next : Hop) (head : HttpHead)
    (location : String) (current target : Url)
    (hfollows : Follows urls answers redirect n hop next head location current target)
    (hhop : Kept method body hop) : Kept method body next := by
  have hmethod : next.method = (hop.changed head.status).method := by
    rw [hfollows.rewritten]
    rfl
  have hbody : next.body = (hop.changed head.status).body := by
    rw [hfollows.rewritten]
    rfl
  rcases hhop with ⟨rfl, rfl⟩ | ⟨hget, hmethods, hdropped⟩
  · rcases changed_cases hop head.status with hsame | ⟨hget, hnotget, hdropped, -⟩
    · left
      rw [hmethod, hbody, hsame]
      exact ⟨rfl, rfl⟩
    · right
      refine ⟨hmethod.trans hget, hnotget, ?_⟩
      rw [hfollows.rewritten]
      refine ⟨hdropped.1, fun pair hpair => hdropped.2 pair ?_⟩
      exact moved_headers_subset _ current target hpair
  · right
    refine ⟨?_, hmethods, dropped_step n hop next head location current target hfollows hdropped⟩
    rcases changed_cases hop head.status with hsame | ⟨-, hnotget, -⟩
    · rw [hmethod, hsame]
      exact hget
    · exact absurd hget hnotget

def Hop.bare (hop : Hop) : Hop :=
  { hop with headers := withoutAuthorization hop.headers }

def Sent.bare (request : Sent) : Sent :=
  { request with headers := withoutAuthorization request.headers }

def Fetched.bare (fetched : Fetched) : Fetched :=
  { fetched with sent := fetched.sent.map Sent.bare }

theorem bare_url (hop : Hop) : hop.bare.url = hop.url := rfl

theorem bare_changed (hop : Hop) (status : ℕ) :
    (hop.changed status).bare = hop.bare.changed status := by
  unfold Hop.changed
  by_cases hchanges : changesMethod status hop.method
  · simp [Hop.bare, hchanges, withoutAuthorization_withoutBodyHeaders]
  · simp [Hop.bare, hchanges]

theorem bare_moved (hop : Hop) (current target : Url) :
    (hop.moved current target).bare = hop.bare.moved current target := by
  unfold Hop.moved
  by_cases horigin : current.origin = target.origin
  · simp [Hop.bare, horigin]
  · simp [Hop.bare, horigin]

theorem loop_bare (left n : ℕ) (hop : Hop) :
    loop urls answers redirect left n hop.bare = (loop urls answers redirect left n hop).bare := by
  induction left generalizing n hop with
  | zero =>
    rw [loop, loop]
    cases hanswer : answers n with
    | aborted => rfl
    | fails => rfl
    | head head =>
      simp only
      split
      · rfl
      split
      · rfl
      split
      · rfl
      · rfl
      · rfl
  | succ left ih =>
    rw [loop, loop]
    cases hanswer : answers n with
    | aborted => rfl
    | fails => rfl
    | head head =>
      simp only
      split
      · rfl
      split
      · rfl
      split
      · rfl
      · rw [bare_url]
        split
        · rfl
        split
        · rfl
        split
        · rfl
        rw [← bare_changed, ← bare_moved, ih]
        rfl
      · rfl

/-- As the URL standard says, the text of a URL that the parser gives parses again, to its origin. -/
def Standard (urls : UrlParser) : Prop :=
  ∀ location base next, urls.parse location base = some next →
    ∃ again, urls.parse next.href none = some again ∧ again.origin = next.origin

/-- Two requests that differ in their `authorization` headers only. -/
structure SameButAuthorization (state other : RequestState) : Prop where
  method : other.method = state.method
  url : other.url = state.url
  headers : withoutAuthorization other.headers = withoutAuthorization state.headers
  redirect : other.redirect = state.redirect
  body : other.body = state.body

def Sent.origin (urls : UrlParser) (request : Sent) : Option String :=
  (urls.parse request.url none).map Url.origin

/-- One of the hops to request `i` changed the origin. -/
def OriginChanged (urls : UrlParser) (sent : List Sent) (i : ℕ) : Prop :=
  ∃ j < i, ∃ request following, sent[j]? = some request ∧ sent[j + 1]? = some following ∧
    request.origin urls ≠ following.origin urls

/-- One of the hops to request `i` changed the method. -/
def MethodChanged (method : String) (sent : List Sent) (i : ℕ) : Prop :=
  ∃ j ≤ i, ∃ request, sent[j]? = some request ∧ request.method ≠ method

theorem has_withoutAuthorization (headers : List Header) (name : String)
    (hname : name ≠ "authorization") : has (withoutAuthorization headers) name = has headers name := by
  induction headers with
  | nil => rfl
  | cons pair headers ih =>
    by_cases hauthorization : pair.1.toLower = "authorization"
    · have hdrop : withoutAuthorization (pair :: headers) = withoutAuthorization headers := by
        simp [withoutAuthorization, hauthorization]
      have hother : ¬"authorization" = name := fun h => hname h.symm
      rw [hdrop, ih]
      simp [has, hauthorization, hother]
    · have hkeep : withoutAuthorization (pair :: headers) = pair :: withoutAuthorization headers := by
        simp [withoutAuthorization, hauthorization]
      rw [hkeep]
      simp only [has, List.any_cons] at ih ⊢
      rw [ih]

theorem bare_firstHop (state other : RequestState) (hsame : SameButAuthorization state other) :
    (firstHop other).bare = (firstHop state).bare := by
  have hhas : ∀ name, name ≠ "authorization" → has other.headers name = has state.headers name := by
    intro name hname
    rw [← has_withoutAuthorization other.headers name hname, hsame.headers,
      has_withoutAuthorization state.headers name hname]
  have haccept := hhas "accept" (by decide)
  have hencoding := hhas "accept-encoding" (by decide)
  have hheaders := hsame.headers
  simp only [withoutAuthorization] at hheaders
  simp only [Hop.bare, firstHop, haccept, hencoding, hsame.method, hsame.url, hsame.body,
    withoutAuthorization, List.filter_append, hheaders]

variable {state other : RequestState}

theorem bare_run (hsame : SameButAuthorization state other) :
    (run urls answers other).bare = (run urls answers state).bare := by
  unfold run
  rw [hsame.redirect, ← loop_bare, ← loop_bare, bare_firstHop state other hsame]

theorem unauthorized_after (hstandard : Standard urls) (state : RequestState) (i : ℕ)
    (request : Sent) (hrequest : (run urls answers state).sent[i]? = some request)
    (hchanged : OriginChanged urls (run urls answers state).sent i) : request.bare = request := by
  obtain ⟨j, hj, earlier, following, hearlier, hfollowing, horigin⟩ := hchanged
  obtain ⟨fewer, turn, next, head, location, current, target, rfl, rfl, hfollows, hdrop⟩ :=
    sent_pair _ 0 _ j earlier following hearlier hfollowing
  have hmoved : current.origin ≠ target.origin := by
    intro hsame
    apply horigin
    obtain ⟨again, hagain, hequal⟩ := hstandard location _ target hfollows.parsed
    have hurl : next.url = target.href := by
      rw [hfollows.rewritten]
      rfl
    simp [Sent.origin, Hop.sent, hfollows.here, hurl, hagain, hequal, hsame]
  have hnext : Unauthorized next := by
    rw [hfollows.rewritten]
    simp only [Unauthorized, Hop.moved, if_pos hmoved, withoutAuthorization_twice]
  have hmem : request ∈ (loop urls answers state.redirect fewer (0 + j + 1) next).sent := by
    rw [← hdrop]
    apply List.mem_of_getElem? (i := i - (j + 1))
    rw [List.getElem?_drop, show j + 1 + (i - (j + 1)) = i by omega]
    exact hrequest
  obtain ⟨later, hlater, rfl⟩ :=
    @sent_all urls answers state.redirect Unauthorized unauthorized_step fewer _ next hnext
      request hmem
  show Sent.bare later.sent = later.sent
  unfold Sent.bare Hop.sent
  simp only
  rw [hlater]

theorem origin_bare (request : Sent) : request.bare.origin urls = request.origin urls := rfl

theorem originChanged_same (hsame : SameButAuthorization state other) (i : ℕ)
    (hchanged : OriginChanged urls (run urls answers state).sent i) :
    OriginChanged urls (run urls answers other).sent i := by
  have hsent : (run urls answers other).sent.map Sent.bare =
      (run urls answers state).sent.map Sent.bare := congrArg Fetched.sent (bare_run hsame)
  have hlookup : ∀ (j : ℕ) (request : Sent), (run urls answers state).sent[j]? = some request →
      ∃ twin : Sent, (run urls answers other).sent[j]? = some twin ∧ twin.bare = request.bare := by
    intro j request hrequest
    have hmap : ((run urls answers other).sent.map Sent.bare)[j]? = some request.bare := by
      rw [hsent, List.getElem?_map, hrequest]
      rfl
    simpa using hmap
  obtain ⟨j, hj, request, following, hrequest, hfollowing, horigin⟩ := hchanged
  obtain ⟨twin, htwin, hbare⟩ := hlookup j request hrequest
  obtain ⟨twin', htwin', hbare'⟩ := hlookup (j + 1) following hfollowing
  refine ⟨j, hj, twin, twin', htwin, htwin', ?_⟩
  rw [← origin_bare twin, ← origin_bare twin', hbare, hbare', origin_bare, origin_bare]
  exact horigin

theorem body_dropped (state : RequestState) (i : ℕ) (request : Sent)
    (hrequest : (run urls answers state).sent[i]? = some request)
    (hchanged : MethodChanged state.method (run urls answers state).sent i) :
    request.body = [] ∧ ∀ pair ∈ request.headers, pair.1.toLower ∉ BODY_HEADERS := by
  obtain ⟨j, hj, earlier, hearlier, hmethod⟩ := hchanged
  have hfirst : Kept state.method (state.body.getD []) (firstHop state) := .inl ⟨rfl, rfl⟩
  obtain ⟨fewer, turn, rfl, hdrop⟩ := later_turn _ 0 _ j earlier hearlier
  -- the turn of request `j` has dropped the body
  obtain ⟨kept, hkept, hequal⟩ :=
    @sent_all urls answers state.redirect (Kept state.method (state.body.getD []))
      (kept_step state.method (state.body.getD [])) _ 0 _ hfirst _
      (List.mem_of_getElem? hearlier)
  have hdropped : Dropped turn := by
    have hmethods : turn.method = kept.method := congrArg Sent.method hequal
    have hbodies : turn.body = kept.body := congrArg Sent.body hequal
    have hheaders : turn.headers = kept.headers := congrArg Sent.headers hequal
    rcases hkept with ⟨hsame, -⟩ | ⟨-, -, hbody, hnames⟩
    · exact absurd (hmethods.trans hsame) hmethod
    · exact ⟨hbodies.trans hbody, hheaders ▸ hnames⟩
  have hmem : request ∈ (loop urls answers state.redirect fewer (0 + j) turn).sent := by
    rw [← hdrop]
    apply List.mem_of_getElem? (i := i - j)
    rw [List.getElem?_drop, show j + (i - j) = i by omega]
    exact hrequest
  obtain ⟨later, hlater, rfl⟩ :=
    @sent_all urls answers state.redirect Dropped dropped_step fewer _ turn hdropped request hmem
  exact hlater

/-- In a fetch, the `authorization` headers stay within the origin that got them first, the body
goes only to requests of the first method, and the redirects are at most `MOST_REDIRECTS`, each one
to an http or https location. Each answer is returned or closed. -/
theorem redirects_contained (urls : UrlParser) (answers : ℕ → Answer) (hstandard : Standard urls)
    (state : RequestState) :
    (∀ other, SameButAuthorization state other → ∀ i < (run urls answers state).sent.length,
        OriginChanged urls (run urls answers state).sent i →
          (run urls answers other).sent[i]? = (run urls answers state).sent[i]?) ∧
      (∀ i request, (run urls answers state).sent[i]? = some request →
        MethodChanged state.method (run urls answers state).sent i →
          request.body = [] ∧ ∀ pair ∈ request.headers, pair.1.toLower ∉ BODY_HEADERS) ∧
      (run urls answers state).sent.length ≤ MOST_REDIRECTS + 1 ∧
      (∀ i response, (run urls answers state).outcome = .response i response →
        i + 1 = (run urls answers state).sent.length) ∧
      (∀ i request following, (run urls answers state).sent[i]? = some request →
        (run urls answers state).sent[i + 1]? = some following →
          state.redirect = .follow ∧
            ∃ head location target, answers i = .head head ∧ head.status ∈ REDIRECT_STATUSES ∧
              locations head = [location] ∧
              urls.parse location (some request.url) = some target ∧
              (target.protocol = "http:" ∨ target.protocol = "https:") ∧
              following.url = target.href) ∧
      ∀ i < (run urls answers state).sent.length, ∀ head, answers i = .head head →
        i ∈ (run urls answers state).closed ∨
          ∃ response, (run urls answers state).outcome = .response i response := by
  refine ⟨?_, body_dropped state, sent_length_le _ 0 _, ?_, ?_, ?_⟩
  · intro other hsame i hi hchanged
    have hsent : (run urls answers other).sent.map Sent.bare =
        (run urls answers state).sent.map Sent.bare := congrArg Fetched.sent (bare_run hsame)
    have hlength : (run urls answers other).sent.length = (run urls answers state).sent.length := by
      simpa using congrArg List.length hsent
    have hi' : i < (run urls answers other).sent.length := by omega
    have hone := List.getElem?_eq_getElem hi
    have htwo := List.getElem?_eq_getElem hi'
    have hbare := unauthorized_after hstandard state i _ hone hchanged
    have hbare' :=
      unauthorized_after hstandard other i _ htwo (originChanged_same hsame i hchanged)
    have hequal := congrArg (fun requests => requests[i]?) hsent
    simp only [List.getElem?_map, hone, htwo, Option.map_some, hbare, hbare'] at hequal
    rw [hone, htwo, hequal]
  · intro i response hresponse
    have hlast := returned_last _ 0 _ i response hresponse
    rw [hlast, Nat.zero_add]
    rfl
  · intro i request following hrequest hfollowing
    obtain ⟨_, turn, next, head, location, current, target, rfl, rfl, hfollows, -⟩ :=
      sent_pair _ 0 _ i request following hrequest hfollowing
    have hanswer := hfollows.answer
    rw [Nat.zero_add] at hanswer
    refine ⟨hfollows.mode, head, location, target, hanswer, hfollows.status, hfollows.single,
      hfollows.parsed, hfollows.http, ?_⟩
    rw [hfollows.rewritten]
    rfl
  · intro i hi head hhead
    have hanswered := @answered urls answers state.redirect MOST_REDIRECTS 0 (firstHop state) i head
      hi (by rwa [Nat.zero_add])
    rw [Nat.zero_add] at hanswered
    exact hanswered

def twoUrls : UrlParser where
  parse location _ :=
    if location = "https://a.example/" then some ⟨location, "https:", "https://a.example"⟩
    else if location = "http://a.example/" then some ⟨location, "http:", "http://a.example"⟩
    else none
  withoutFragment url := url

def tokenRequest (token : String) : RequestState where
  method := "GET"
  url := "https://a.example/"
  headers := [("Authorization", token)]
  redirect := .follow
  body := none

def downgrade (n : ℕ) : Answer :=
  .head
    { status := if n = 0 then 302 else 200
      statusText := ""
      headers := if n = 0 then [("location", "http://a.example/")] else [] }

theorem standard_twoUrls : Standard twoUrls := by
  intro location base next hparse
  simp only [twoUrls] at hparse ⊢
  split at hparse
  next hfirst =>
    cases hparse
    exact ⟨⟨location, "https:", "https://a.example"⟩, by simp [hfirst], rfl⟩
  next =>
    split at hparse
    next hsecond =>
      cases hparse
      exact ⟨⟨location, "http:", "http://a.example"⟩, by simp [hsecond], rfl⟩
    next => cases hparse

theorem redirects_contained_downgrade :
    (run twoUrls downgrade (tokenRequest "secret")).sent.length = 2 ∧
      (run twoUrls downgrade (tokenRequest "other")).sent[1]? =
        (run twoUrls downgrade (tokenRequest "secret")).sent[1]? := by
  have hlength : (run twoUrls downgrade (tokenRequest "secret")).sent.length = 2 := by
    decide +kernel
  refine ⟨hlength, ?_⟩
  apply (redirects_contained twoUrls downgrade standard_twoUrls (tokenRequest "secret")).1
  · exact ⟨rfl, rfl, by decide +kernel, rfl, rfl⟩
  · omega
  · refine ⟨0, by omega, ⟨"GET", "https://a.example/",
      [("Authorization", "secret"), ("accept", "*/*"), ("accept-encoding", "identity")], []⟩,
      ⟨"GET", "http://a.example/", [("accept", "*/*"), ("accept-encoding", "identity")], []⟩, ?_⟩
    decide +kernel

end Yuke.Js.Fetch
