import Mathlib

/-!
# The stored credentials

`auth.json` holds one entry for each provider: a login or an API key. Each write holds the lock
file, and replaces the whole content.
-/

set_option autoImplicit false

namespace Yuke.Auth

/-- The login of one provider. `expiresAt` is in milliseconds since the Unix epoch. -/
structure StoredLogin where
  accessToken : String
  refreshToken : String
  expiresAt : Nat
  accountId : Option String
  deriving DecidableEq

structure Grant where
  accessToken : String
  refreshToken : Option String
  expiresAt : Nat
  accountId : Option String
  deriving DecidableEq

namespace StoredLogin

/-- The login of `grant`. A grant without a refresh token keeps `refreshToken`, and one without an
account keeps `accountId`. -/
def fromGrant (grant : Grant) (refreshToken : String) (accountId : Option String) : StoredLogin where
  accessToken := grant.accessToken
  refreshToken := grant.refreshToken.getD refreshToken
  expiresAt := grant.expiresAt
  accountId := grant.accountId <|> accountId

/-- Whether the access token is still valid `margin` after `now`. -/
def valid (login : StoredLogin) (now margin : Nat) : Bool := login.expiresAt > now + margin

end StoredLogin

def MARGIN : Nat := 5 * 60 * 1000

inductive Stored where
  | login (login : StoredLogin)
  | apiKey (apiKey : String)
  deriving DecidableEq

/-- The entries of `auth.json`. A missing file has none. -/
abbrev Entries := String → Option Stored

/-- The login of `provider`. -/
def Entries.login (entries : Entries) (provider : String) : Option StoredLogin :=
  match entries provider with
  | some (.login login) => some login
  | some (.apiKey _) | none => none

/-- Set the entry of `provider` to `entry`, or remove it. -/
def Entries.set (entries : Entries) (provider : String) (entry : Option Stored) : Entries :=
  Function.update entries provider entry

@[simp] theorem Entries.set_self (entries : Entries) (provider : String) (entry : Option Stored) :
    entries.set provider entry provider = entry := by
  simp [Entries.set]

theorem Entries.set_of_ne (entries : Entries) {provider other : String} (h : other ≠ provider)
    (entry : Option Stored) : entries.set provider entry other = entries other := by
  simp [Entries.set, h]

theorem Entries.login_eq_some {entries : Entries} {provider : String} {login : StoredLogin} :
    entries.login provider = some login ↔ entries provider = some (.login login) := by
  unfold Entries.login
  split <;> simp_all

/-- Where `LockedFiles::set` stands after its read: at its end, or before the write of the new
entries. A removal of a missing entry writes nothing. -/
inductive SetRead where
  | ended (ok : Bool)
  | writing (entries : Entries)

/-- The first half of `LockedFiles::set`. `fails` is a read that gives no valid content. -/
def setRead (file : Entries) (provider : String) (entry : Option Stored) (fails : Bool) : SetRead :=
  if fails then .ended false
  else if entry.isNone && (file provider).isNone then .ended true
  else .writing (file.set provider entry)

theorem setRead_ended {file : Entries} {provider : String} {entry : Option Stored} {fails : Bool}
    (h : setRead file provider entry fails = .ended true) : file provider = none := by
  unfold setRead at h
  split at h
  · simp at h
  · split at h
    next hmissing => simpa using (Bool.and_eq_true_iff.mp hmissing).2
    · cases h

theorem setRead_missing {file : Entries} {provider : String} {entry : Option Stored} {ok : Bool}
    (h : setRead file provider entry false = .ended ok) :
    entry = none ∧ file provider = none := by
  unfold setRead at h
  split at h
  next hfails => cases hfails
  · split at h
    next hmissing => simpa using hmissing
    · cases h

theorem setRead_writing {file entries : Entries} {provider : String} {entry : Option Stored}
    {fails : Bool} (h : setRead file provider entry fails = .writing entries) :
    entries = file.set provider entry := by
  unfold setRead at h
  split at h
  · cases h
  · split at h
    · cases h
    · exact (SetRead.writing.inj h).symm

/-- How the replacement of the file ends. `unsynced` is a failed sync of the folder after the
rename. -/
inductive Write where
  | written
  | failed
  | unsynced
  deriving DecidableEq

/-- The second half of `LockedFiles::set`: the file after it, and whether it succeeded. -/
def setWrite (file entries : Entries) : Write → Entries × Bool
  | .written => (entries, true)
  | .failed => (file, false)
  | .unsynced => (entries, false)

/-- Where a `write_entry` stands: a login, a logout or a key update of any process. -/
inductive WriterPhase where
  | locking
  | locked
  | writing (entries : Entries)

def WriterPhase.holds : WriterPhase → Bool
  | .locking => false
  | .locked | .writing _ => true

structure Writer where
  provider : String
  entry : Option Stored
  phase : WriterPhase

inductive AuthError where
  | noLogin
  | file (text : String)
  | held
  | ended
  | expired (cause : String)
  | pushExpired
  deriving DecidableEq

end Yuke.Auth
