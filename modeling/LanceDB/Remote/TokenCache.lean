import LanceDB.Base.Threads

/-!
# The shared cache of OAuth refresh tokens

Processes and handles that share a cache identity keep one refresh token in a file, guarded by a
file lock.  A call that needs a new access token reads the cached refresh token under the lock,
presents it to the server and stores what the server returns before the lock is released.  If there
is no session, or the server rejects it, a new one is acquired interactively, outside the lock, and
stored under the lock.  `login` does the same.  `logout` deletes the file, without the lock.

The server may return a new refresh token for the one it is shown, which is then rotated: it must
not be shown again.  Refresh tokens are numbered in the order the server issues them.

* `Session`, `State` : the cache, its lock, the server, and the handles.
* `Thread`, `step`, `machine` : the calls, with one step between any two awaits.
* `Role`, `Flow` : what a step does to the tokens.
* `flow_of_step` — every step is a flow of tokens.
-/

namespace LanceDB.TokenCache

/-! ### The state -/

/-- The cached record, the file lock, and the refresh tokens of the server. -/
structure Session where
  cache : Option ℕ
  locked : Bool
  /-- How many refresh tokens have been issued. -/
  issued : ℕ
  rotated : List ℕ

/-- `store`. -/
def Session.store (s : Session) (token : ℕ) : Session := { s with cache := some token }

/-- `delete`. -/
def Session.delete (s : Session) : Session := { s with cache := none }

/-- `store_if_refreshable`: a response without a refresh token is not stored. -/
def Session.storeIfRefreshable (s : Session) : Option ℕ → Session
  | some token => s.store token
  | none => s

/-- The body of `store_login_response`: it never keeps an earlier session. -/
def Session.storeLoginResponse (s : Session) : Option ℕ → Session
  | some token => s.store token
  | none => s.delete

/-- `TokenState`, without the times. -/
structure TokenState where
  accessToken : Bool
  refreshToken : Option ℕ

/-- `TokenState::update`. -/
def TokenState.update (state : TokenState) (response : Option ℕ) : TokenState where
  accessToken := true
  refreshToken := response.or state.refreshToken

/-- An `OAuthHeaderProvider` with a token cache, and whether its write lock is held. -/
structure Handle where
  state : TokenState
  writing : Bool

/-- The access token is there and not expired. -/
def Handle.valid (handle : Handle) (expired : Bool) : Bool := handle.state.accessToken && !expired

structure State where
  session : Session
  handles : ℕ → Handle

/-- A change of one handle. -/
def State.onHandle (s : State) (h : ℕ) (f : Handle → Handle) : State :=
  { s with handles := Function.update s.handles h (f (s.handles h)) }

/-- The write lock of the handle of a call is released; a login has none. -/
def State.release (s : State) : Option ℕ → State
  | some h => s.onHandle h fun handle => { handle with writing := false }
  | none => s

/-- The handle is updated by a response, and its write lock released. -/
def State.finish (s : State) (caller : Option ℕ) (response : Option ℕ) : State :=
  match caller with
  | some h => s.onHandle h fun handle => ⟨handle.state.update response, false⟩
  | none => s

/-! ### Calls -/

/-- The refresh token in a response to a refresh request. -/
inductive Returned (α : Type)
  | nothing
  /-- The one that was presented. -/
  | same
  /-- A new one; the one that was presented is rotated. -/
  | fresh (token : α)

/-- The token in the response. -/
def Returned.token (presented : ℕ) : Returned ℕ → Option ℕ
  | .nothing => none
  | .same => some presented
  | .fresh token => some token

/-- What the server answers to a refresh request. -/
inductive Answer
  | refreshed (returned : Returned Unit)
  | reauthenticate
  /-- The token source does not refresh: nothing is sent. -/
  | unsupported
  /-- An error that is no rejection. -/
  | failed

/-- A call, by where it is; the caller is a handle, or none for a login. -/
inductive Thread
  | idle
  /-- `get_valid_token`, on the fast path, and before the write lock. -/
  | checking (handle : ℕ)
  | waiting (handle : ℕ)
  /-- `refresh_or_acquire`, before the file lock. -/
  | entering (handle : ℕ)
  /-- With the file lock: before `load`, with a record, and with the answer to its token. -/
  | loading (handle : ℕ)
  | refreshing (handle token : ℕ)
  | refreshed (handle presented : ℕ) (returned : Returned ℕ)
  | rejected (handle : ℕ)
  | failing (handle : ℕ)
  /-- With the file lock, which is released next. -/
  | leaving (handle : ℕ)
  /-- Without the file lock, before and during `fetch_token`, and with its response. -/
  | acquiring (handle : ℕ)
  | fetching (caller : Option ℕ)
  | fetched (caller : Option ℕ) (response : Option ℕ)
  /-- With the file lock, before and after the response is stored. -/
  | storing (caller : Option ℕ) (response : Option ℕ)
  | finishing (caller : Option ℕ) (response : Option ℕ)
  /-- The file lock is released. -/
  | updating (caller : Option ℕ) (response : Option ℕ)
  /-- `logout`, before and after `delete`. -/
  | deleting
  | deleted

/-- What the environment decides in a step. -/
inductive Action
  | getValidToken (handle : ℕ)
  | login
  | logout
  /-- The access token is looked at, which may be expired. -/
  | check (expired : Bool)
  | refresh (answer : Answer)
  /-- `fetch_token` returns, with a refresh token or without one. -/
  | fetch (refreshable : Bool)
  | fetchFailed
  /-- The file lock was not free in time. -/
  | timeout
  | proceed

inductive Event
  /-- A request carries a refresh token. -/
  | presents (token : ℕ)
  /-- A login or an interactive acquisition starts. -/
  | acquires
  /-- `logout` returns. -/
  | loggedOut
  deriving DecidableEq

/-- The answer of the server to a refresh token, and the next state of the call.  A token that was
rotated is never accepted. -/
def refresh (s : State) (h token : ℕ) : Answer → Option (State × Thread × Option Event)
  | .unsupported => some (s, .leaving h, none)
  | .failed => some (s, .failing h, some (.presents token))
  | .reauthenticate => some (s, .rejected h, some (.presents token))
  | .refreshed returned =>
    if token ∈ s.session.rotated then none
    else match returned with
      | .nothing => some (s, .refreshed h token .nothing, some (.presents token))
      | .same => some (s, .refreshed h token .same, some (.presents token))
      | .fresh () =>
        let session := { s.session with
          issued := s.session.issued + 1
          rotated := token :: s.session.rotated }
        some ({ s with session }, .refreshed h token (.fresh s.session.issued),
          some (.presents token))

/-- One step of a call. -/
def step (s : State) : Thread → Action → Option (State × Thread × Option Event)
  | .idle, .getValidToken h => some (s, .checking h, none)
  | .idle, .login => some (s, .fetching none, some .acquires)
  | .idle, .logout => some (s, .deleting, none)
  -- `get_valid_token`
  | .checking h, .check expired =>
    if (s.handles h).writing then none
    else if (s.handles h).valid expired then some (s, .idle, none)
    else some (s, .waiting h, none)
  | .waiting h, .check expired =>
    if (s.handles h).writing then none
    else if (s.handles h).valid expired then some (s, .idle, none)
    else some (s.onHandle h fun handle => { handle with writing := true }, .entering h, none)
  -- `refresh_or_acquire`
  | .entering h, .proceed =>
    if s.session.locked then none
    else some ({ s with session := { s.session with locked := true } }, .loading h, none)
  | .entering h, .timeout => some (s.release (some h), .idle, none)
  | .loading h, .proceed =>
    match s.session.cache with
    | some token => some (s, .refreshing h token, none)
    | none => some (s, .leaving h, none)
  | .refreshing h token, .refresh answer => refresh s h token answer
  | .refreshed h presented returned, .proceed =>
    some ({ s with session := s.session.storeIfRefreshable (returned.token presented) },
      .finishing (some h) (returned.token presented), none)
  | .rejected h, .proceed => some ({ s with session := s.session.delete }, .leaving h, none)
  | .failing h, .proceed =>
    some ({ s with session := { s.session with locked := false } }.release (some h), .idle, none)
  | .leaving h, .proceed =>
    some ({ s with session := { s.session with locked := false } }, .acquiring h, none)
  | .acquiring h, .proceed => some (s, .fetching (some h), some .acquires)
  -- the part that `login` and `refresh_or_acquire` share
  | .fetching caller, .fetch true =>
    some ({ s with session := { s.session with issued := s.session.issued + 1 } },
      .fetched caller (some s.session.issued), none)
  | .fetching caller, .fetch false => some (s, .fetched caller none, none)
  | .fetching caller, .fetchFailed => some (s.release caller, .idle, none)
  | .fetched caller response, .proceed =>
    if s.session.locked then none
    else some ({ s with session := { s.session with locked := true } },
      .storing caller response, none)
  | .fetched caller _, .timeout => some (s.release caller, .idle, none)
  | .storing (some h) response, .proceed =>
    some ({ s with session := s.session.storeIfRefreshable response },
      .finishing (some h) response, none)
  | .storing none response, .proceed =>
    some ({ s with session := s.session.storeLoginResponse response },
      .finishing none response, none)
  | .finishing caller response, .proceed =>
    some ({ s with session := { s.session with locked := false } },
      .updating caller response, none)
  | .updating caller response, .proceed => some (s.finish caller response, .idle, none)
  -- `logout`
  | .deleting, .proceed => some ({ s with session := s.session.delete }, .deleted, none)
  | .deleted, .proceed => some (s, .idle, some .loggedOut)
  | _, _ => none

/-- Any number of calls, of any number of processes and handles. -/
def machine : Machine State Thread Action Event where
  step := step

/-- Nothing runs, and the server has not rotated anything yet; a session may be cached. -/
structure Initial (c : Machine.Config State Thread) : Prop where
  unlocked : c.shared.session.locked = false
  rotated : c.shared.session.rotated = []
  issued : ∀ token ∈ c.shared.session.cache, token < c.shared.session.issued
  idle : ∀ i, c.thread i = .idle

@[simp] theorem release_session (s : State) (caller : Option ℕ) :
    (s.release caller).session = s.session := by
  cases caller <;> rfl

@[simp] theorem finish_session (s : State) (caller response : Option ℕ) :
    (s.finish caller response).session = s.session := by
  cases caller <;> rfl

/-! ### The flow of tokens -/

/-- What a call is to the tokens. -/
inductive Role
  /-- It has no token, and does not hold the file lock. -/
  | outside
  /-- It waits for a new token. -/
  | fetches
  /-- It holds the file lock. -/
  | holder
  /-- It holds the file lock and the token it has read, which it presents next. -/
  | reads (token : ℕ)
  /-- It holds the file lock and stores a token again. -/
  | keeps (token : ℕ)
  /-- It holds the file lock and a new token for one that is rotated. -/
  | swaps (rotated token : ℕ)
  /-- It has a new token, and waits for the file lock. -/
  | brings (token : ℕ)
  /-- It holds the file lock and a new token. -/
  | stores (token : ℕ)

def Thread.role : Thread → Role
  | .loading _ | .rejected _ | .failing _ | .leaving _ | .finishing _ _ => .holder
  | .refreshing _ token => .reads token
  | .refreshed _ _ .nothing => .holder
  | .refreshed _ presented .same => .keeps presented
  | .refreshed _ presented (.fresh token) => .swaps presented token
  | .fetching _ => .fetches
  | .fetched _ (some token) => .brings token
  | .storing _ (some token) => .stores token
  | .storing _ none => .holder
  | _ => .outside

/-- What one step does to the tokens. -/
inductive Flow (s : Session) : Role → Session → Role → Option Event → Prop
  | stay (r : Role) : Flow s r s r none
  /-- `logout` returns. -/
  | logOut : Flow s .outside s .outside (some .loggedOut)
  | lock : s.locked = false → Flow s .outside { s with locked := true } .holder none
  | lockWith (token : ℕ) : s.locked = false →
      Flow s (.brings token) { s with locked := true } (.stores token) none
  | unlock : Flow s .holder { s with locked := false } .outside none
  | load (token : ℕ) : s.cache = some token → Flow s .holder s (.reads token) none
  /-- The token source does not refresh. -/
  | skip (token : ℕ) : Flow s (.reads token) s .holder none
  | present (token : ℕ) : Flow s (.reads token) s .holder (some (.presents token))
  | keep (token : ℕ) : Flow s (.reads token) s (.keeps token) (some (.presents token))
  | rotate (token : ℕ) :
      Flow s (.reads token) { s with issued := s.issued + 1, rotated := token :: s.rotated }
        (.swaps token s.issued) (some (.presents token))
  | storeSame (token : ℕ) : Flow s (.keeps token) (s.store token) .holder none
  | storeSwapped (rotated token : ℕ) : Flow s (.swaps rotated token) (s.store token) .holder none
  | storeNew (token : ℕ) : Flow s (.stores token) (s.store token) .holder none
  | delete (r : Role) : Flow s r s.delete r none
  | acquire : Flow s .outside s .fetches (some .acquires)
  | issue : Flow s .fetches { s with issued := s.issued + 1 } (.brings s.issued) none
  /-- The acquisition failed, or has brought no refresh token. -/
  | fetchNothing : Flow s .fetches s .outside none
  | abandon (token : ℕ) : Flow s (.brings token) s .outside none

theorem flow_of_refresh {s s' : State} {h token : ℕ} {answer : Answer} {t' : Thread}
    {o : Option Event} (hrefr : refresh s h token answer = some (s', t', o)) :
    Flow s.session (.reads token) s'.session t'.role o := by
  cases answer with
  | unsupported =>
    cases hrefr
    exact .skip token
  | failed | reauthenticate =>
    cases hrefr
    exact .present token
  | refreshed returned =>
    simp only [refresh] at hrefr
    split_ifs at hrefr
    cases returned with
    | nothing =>
      cases hrefr
      exact .present token
    | same =>
      cases hrefr
      exact .keep token
    | fresh u =>
      cases hrefr
      exact .rotate token

/-- **Every step is a flow of tokens.** -/
theorem flow_of_step {s s' : State} {t t' : Thread} {a : Action} {o : Option Event}
    (h : step s t a = some (s', t', o)) : Flow s.session t.role s'.session t'.role o := by
  rw [step.eq_def] at h
  split at h
  -- the start of a call
  · cases h
    exact .stay _
  · cases h
    exact .acquire
  · cases h
    exact .stay _
  -- `get_valid_token`
  · split_ifs at h <;> cases h <;> exact .stay _
  · split_ifs at h <;> cases h <;> exact .stay _
  -- `refresh_or_acquire`
  · split_ifs at h with hlock
    cases h
    exact .lock (by simpa using hlock)
  · cases h
    exact .stay _
  · split at h
    · rename_i token hca
      cases h
      exact .load token hca
    · cases h
      exact .stay _
  · exact flow_of_refresh h
  · rename_i handle presented returned
    cases h
    cases returned with
    | nothing => exact .stay _
    | same => exact .storeSame presented
    | fresh token => exact .storeSwapped presented token
  · cases h
    exact .delete _
  · cases h
    exact .unlock
  · cases h
    exact .unlock
  · cases h
    exact .acquire
  -- the part that `login` and `refresh_or_acquire` share
  · cases h
    exact .issue
  · cases h
    exact .fetchNothing
  · cases h
    rw [release_session]
    exact .fetchNothing
  · rename_i caller response
    split_ifs at h with hlock
    cases h
    cases response with
    | none => exact .lock (by simpa using hlock)
    | some token => exact .lockWith token (by simpa using hlock)
  · rename_i caller response
    cases h
    rw [release_session]
    cases response with
    | none => exact .stay _
    | some token => exact .abandon token
  · rename_i handle response
    cases h
    cases response with
    | none => exact .stay _
    | some token => exact .storeNew token
  · rename_i response
    cases h
    cases response with
    | none => exact .delete _
    | some token => exact .storeNew token
  · cases h
    exact .unlock
  · cases h
    rw [finish_session]
    exact .stay _
  -- `logout`
  · cases h
    exact .delete _
  · cases h
    exact .logOut
  · cases h

end LanceDB.TokenCache
