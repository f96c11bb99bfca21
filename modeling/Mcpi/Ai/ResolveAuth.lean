import Mcpi.Lib.Transition

/-!
# Resolving provider auth

`resolveProviderAuth` calls on one provider that share a credential store. `modify` runs under the lock of
the provider: in memory it is the chain of earlier operations, in a file the lock file. A call goes from one
`await` to the next in one step. Aborting its signal rejects the call at once; what runs for it goes on to
its next check of the signal.
-/

namespace Mcpi.Ai.Auth

/-! ## Credentials -/

/-- An OAuth credential. The tokens are opaque: `issue` tells which credential of the provider it is. -/
structure OAuthCredential where
  issue : Nat
  expires : Int
  deriving DecidableEq

inductive Credential
  | oauth (credential : OAuthCredential)
  | api_key (key : String)
  deriving DecidableEq

/-- The handlers of a provider. -/
structure ProviderAuth where
  apiKey : Bool
  oauth : Bool

structure AuthResolutionOverrides where
  apiKey : Option String
  minOAuthValidityMs : Option Int

/-- What `resolveApiKey` is given: the key of the request, a stored one, or the environment. -/
inductive KeySource
  | request (key : String)
  | stored (key : String)
  | ambient
  deriving DecidableEq

/-- What the auth of a result has been derived from. -/
inductive AuthResult
  | oauth (credential : OAuthCredential)
  | apiKey (source : KeySource)
  deriving DecidableEq

inductive Outcome
  | resolved (result : Option AuthResult)
  | rejected
  deriving DecidableEq

/-! ## Calls -/

/-- Where a call is. `leaving` is the end of `modify` under the lock, with what it returns if it does. -/
inductive Phase
  | start
  | reading
  | resolvingKey (source : KeySource)
  | waiting
  | refreshing (current : OAuthCredential)
  | answered (current next : OAuthCredential)
  | leaving (post : Option (Option Credential))
  | toAuth (credential : OAuthCredential)
  | done
  deriving DecidableEq

/-- A call. `held` records what the store held when the call looked at it or wrote to it, `answer` what the
provider has answered. -/
structure Call where
  phase : Phase
  aborted : Bool
  outcome : Option Outcome
  held : List Credential
  answer : Option OAuthCredential
  deriving DecidableEq

def Call.start : Call :=
  { phase := .start, aborted := false, outcome := none, held := [], answer := none }

/-- The end of a call. One that has been rejected stays rejected. -/
def Call.settle (call : Call) (outcome : Outcome) : Call :=
  { call with phase := .done, outcome := call.outcome.or (some outcome) }

/-- The store, its lock and the calls. `issued` counts the credentials of the provider, `replaced` lists
those that a refresh has replaced. -/
structure State where
  store : Option Credential
  lock : Option Nat
  calls : Nat → Call
  issued : Nat
  replaced : List Nat
  loggedOut : Bool

def State.start (store : Option Credential) : State :=
  { store
    lock := none
    calls := fun _ => .start
    issued := match store with
      | some (.oauth credential) => credential.issue + 1
      | _ => 0
    replaced := []
    loggedOut := false }

def State.set (s : State) (i : Nat) (call : Call) : State :=
  { s with calls := fun j => if j = i then call else s.calls j }

/-! ## Events -/

inductive KeyOutcome
  | auth
  | undefined
  | failed
  deriving DecidableEq

inductive Event
  | start (i : Nat)
  | read (i : Nat) (now : Int)
  | resolveKey (i : Nat) (outcome : KeyOutcome)
  | lock (i : Nat) (now : Int)
  | giveUp (i : Nat)
  | refreshed (i : Nat) (expires : Int)
  | refreshFailed (i : Nat)
  | write (i : Nat)
  | release (i : Nat) (now : Int)
  | derived (i : Nat) (ok : Bool)
  | abort (i : Nat)
  | logout
  deriving DecidableEq

def defaultOAuthMinimumValidityMs : Int := 5 * 60 * 1000

def expiresSoon (overrides : AuthResolutionOverrides) (now : Int) (credential : OAuthCredential) : Bool :=
  now + max defaultOAuthMinimumValidityMs (overrides.minOAuthValidityMs.getD 0) ≥ credential.expires

/-! ## Steps -/

section Steps

variable (provider : ProviderAuth) (overrides : Nat → AuthResolutionOverrides)

/-- A key in the request is used without the store. -/
def start (s : State) (i : Nat) : Option State :=
  let call := s.calls i
  if call.phase = .start then
    if call.aborted then some (s.set i (call.settle .rejected))
    else
      match (overrides i).apiKey, provider.apiKey with
      | some key, true => some (s.set i { call with phase := .resolvingKey (.request key) })
      | _, _ => some (s.set i { call with phase := .reading })
  else none

/-- `readCredential` and the choice of the handler -/
def read (s : State) (i : Nat) (now : Int) : Option State :=
  let call := s.calls i
  if call.phase = .reading then
    if call.aborted then some (s.set i (call.settle .rejected))
    else
      match s.store with
      | none =>
        if provider.apiKey then some (s.set i { call with phase := .resolvingKey .ambient })
        else some (s.set i (call.settle (.resolved none)))
      | some stored =>
        let call := { call with held := stored :: call.held }
        match stored with
        | .oauth credential =>
          if provider.oauth then
            if expiresSoon (overrides i) now credential then
              some (s.set i { call with phase := .waiting })
            else some (s.set i { call with phase := .toAuth credential })
          else some (s.set i (call.settle (.resolved none)))
        | .api_key key =>
          if provider.apiKey then
            some (s.set i { call with phase := .resolvingKey (.stored key) })
          else some (s.set i (call.settle (.resolved none)))
  else none

def resolveKey (s : State) (i : Nat) (outcome : KeyOutcome) : Option State :=
  let call := s.calls i
  match call.phase with
  | .resolvingKey source =>
    some (s.set i (call.settle (match outcome with
      | .auth => .resolved (some (.apiKey source))
      | .undefined => .resolved none
      | .failed => .rejected)))
  | _ => none

/-- The lock is taken and the function of `modify` starts. The expiry is checked once more. -/
def lock (s : State) (i : Nat) (now : Int) : Option State :=
  let call := s.calls i
  if call.phase = .waiting ∧ s.lock = none then
    let s := { s with lock := some i }
    if call.aborted then some (s.set i { call with phase := .leaving none })
    else
      let call := { call with held := s.store.toList ++ call.held }
      match s.store with
      | some (.oauth current) =>
        if expiresSoon (overrides i) now current then
          some (s.set i { call with phase := .refreshing current })
        else some (s.set i { call with phase := .leaving (some s.store) })
      | _ => some (s.set i { call with phase := .leaving (some s.store) })
  else none

/-- A call that waits for the lock and has been aborted. -/
def giveUp (s : State) (i : Nat) : Option State :=
  let call := s.calls i
  if call.phase = .waiting ∧ call.aborted then some (s.set i (call.settle .rejected)) else none

/-- `oauth.refresh` resolves with a new credential. -/
def refreshed (s : State) (i : Nat) (expires : Int) : Option State :=
  let call := s.calls i
  match call.phase with
  | .refreshing current =>
    let next : OAuthCredential := { issue := s.issued, expires }
    some ({ s with issued := s.issued + 1, replaced := current.issue :: s.replaced }.set i
        { call with phase := .answered current next, answer := some next })
  | _ => none

def refreshFailed (s : State) (i : Nat) : Option State :=
  let call := s.calls i
  match call.phase with
  | .refreshing _ => some (s.set i { call with phase := .leaving none })
  | _ => none

/-- The signal is checked, and what the function has returned is written. -/
def write (s : State) (i : Nat) : Option State :=
  let call := s.calls i
  match call.phase with
  | .answered _ next =>
    if call.aborted then some (s.set i { call with phase := .leaving none })
    else
      some ({ s with store := some (.oauth next) }.set i
        { call with
          phase := .leaving (some (some (.oauth next)))
          held := .oauth next :: call.held })
  | _ => none

/-- The lock is released, and `resolveStoredOAuth` goes on with what `modify` returns. -/
def release (s : State) (i : Nat) (now : Int) : Option State :=
  let call := s.calls i
  match call.phase with
  | .leaving post =>
    let s := { s with lock := none }
    match post with
    | none => some (s.set i (call.settle .rejected))
    | some (some (.oauth credential)) =>
      if (overrides i).minOAuthValidityMs ≠ none ∧ expiresSoon (overrides i) now credential then
        some (s.set i (call.settle .rejected))
      else some (s.set i { call with phase := .toAuth credential })
    | some _ => some (s.set i (call.settle (.resolved none)))
  | _ => none

/-- `oauth.toAuth` -/
def derived (s : State) (i : Nat) (ok : Bool) : Option State :=
  let call := s.calls i
  match call.phase with
  | .toAuth credential =>
    some (s.set i (call.settle (if ok then .resolved (some (.oauth credential)) else .rejected)))
  | _ => none

/-- `raceWithAbortSignal` rejects the call. -/
def abort (s : State) (i : Nat) : Option State :=
  let call := s.calls i
  some (s.set i { call with aborted := true, outcome := call.outcome.or (some .rejected) })

/-- `delete`, which does not wait between taking the lock and releasing it -/
def logout (s : State) : Option State :=
  if s.lock = none then some { s with store := none, loggedOut := true } else none

def step (s : State) : Event → Option State
  | .start i => start provider overrides s i
  | .read i now => read provider overrides s i now
  | .resolveKey i outcome => resolveKey s i outcome
  | .lock i now => lock overrides s i now
  | .giveUp i => giveUp s i
  | .refreshed i expires => refreshed s i expires
  | .refreshFailed i => refreshFailed s i
  | .write i => write s i
  | .release i now => release overrides s i now
  | .derived i ok => derived s i ok
  | .abort i => abort s i
  | .logout => logout s

end Steps

end Mcpi.Ai.Auth
