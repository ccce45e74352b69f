import CmcServer.Model.ServerInit

/-! # Failures of the server's start

`SAFE_CLOSE` closes descriptors that are negative, and `io_uring_queue_init` reports its failure
in its result only. A start that fails behind `socket` keeps the socket. -/

namespace CmcServer

/-- The calls behind `socket` all succeed on its descriptor. -/
structure StartupCalls.RestSucceeds (calls : StartupCalls) (config : ServerConfig) (fd : ℕ) :
    Prop where
  setsockopt : calls.setsockopt fd SOL_SOCKET SO_REUSEADDR 1 = .ok ()
  bind : calls.bind fd ⟨AF_INET, htons config.port, htons INADDR_ANY⟩ = .ok ()
  listen : calls.listen fd config.maxServerListPending = .ok ()
  ioUringQueueInit : calls.ioUringQueueInit (config.maxConnections + 1) = .ok ()

def StartupCalls.Succeed (calls : StartupCalls) (config : ServerConfig) : Prop :=
  ∃ fd, calls.socket = .ok fd ∧ calls.RestSucceeds config fd

/-- A start is done in full, or it reports an error and nothing is left of it. -/
structure InitAtomic (config : Option ServerConfig) (calls : StartupCalls) (p : ServerProcess) :
    Prop where
  noError_iff : (initServer config calls p).1 = Err.noError.code ↔
    calls.Succeed (chosenConfig config) ∧
      (initServer config calls p).2.gServerConfig = chosenConfig config
  socket : (initServer config calls p).1 ≠ Err.noError.code →
    (initServer config calls p).2.mServerSocket = -1
  closed : (initServer config calls p).1 ≠ Err.noError.code →
    ∀ fd, calls.socket = .ok fd → fd ∉ (initServer config calls p).2.descriptors
  unchanged : (initServer config calls p).1 ≠ Err.noError.code →
    (initServer config calls p).2.gServerConfig = p.gServerConfig
  refused : (initServer config calls p).1 ≠ Err.noError.code →
    serverStartCheck (initServer config calls p).2 = .checkFailed

variable {config : Option ServerConfig} {calls : StartupCalls} {p : ServerProcess}

/-! ## The three ways to go -/

/-- A start without a socket reports the failure and has nothing to undo. -/
theorem initServer_socket_failed (config : Option ServerConfig) (p : ServerProcess) {e : ℕ+}
    (h : calls.socket = .error e) :
    initServer config calls p =
      (-((e : ℕ) : ℤ), { p with mServerSocket := -1, errno := EBADF }) := by
  have he : -((e : ℕ) : ℤ) ≠ 0 := by simp
  simp [initServer, initServerSteps, h, ServerProcess.checkErrno, ServerProcess.safeClose,
    ServerProcess.close, Err.code, he]

theorem initServer_succeeded {fd : ℕ} (h : calls.socket = .ok fd)
    (hrest : calls.RestSucceeds (chosenConfig config) fd) :
    initServer config calls p = (Err.noError.code,
      { p with
        mServerSocket := fd, descriptors := fd :: p.descriptors,
        gServerConfig := chosenConfig config }) := by
  simp [initServer, initServerSteps, h, ServerProcess.checkCall, hrest.setsockopt, hrest.bind,
    hrest.listen, hrest.ioUringQueueInit, Err.code]

theorem safeClose_of_nonneg (h : 0 ≤ p.mServerSocket) : p.safeClose = p := by
  rw [ServerProcess.safeClose, if_neg (by omega)]

theorem checkCall_socket {result : Except ℕ+ Unit} {rest : ServerProcess → ℤ × ServerProcess}
    {fd : ℤ} (hp : p.mServerSocket = fd)
    (hrest : ∀ p, p.mServerSocket = fd → (rest p).2.mServerSocket = fd) :
    (p.checkCall result rest).2.mServerSocket = fd := by
  cases result with
  | error e => exact hp
  | ok _ => exact hrest p hp

/-- Whatever fails behind `socket`, the socket stays. -/
theorem initServer_keeps_socket {fd : ℕ} (h : calls.socket = .ok fd) :
    (initServer config calls p).2.mServerSocket = fd := by
  have hsteps : (initServerSteps (chosenConfig config) calls p).2.mServerSocket = fd := by
    rw [initServerSteps, h]
    refine checkCall_socket rfl fun p hp => ?_
    refine checkCall_socket hp fun p hp => ?_
    refine checkCall_socket hp fun p hp => ?_
    split
    · exact hp
    · exact hp
  have hopen := safeClose_of_nonneg (by rw [hsteps]; exact Int.natCast_nonneg fd)
  simp only [initServer, hopen, ite_self, hsteps]

/-- The start of the server is atomic when no call fails behind `socket`, and only then. -/
theorem init_server_atomic_iff (config : Option ServerConfig) (calls : StartupCalls)
    (p : ServerProcess) :
    InitAtomic config calls p ↔
      calls.Succeed (chosenConfig config) ∨ ∃ e, calls.socket = .error e := by
  constructor
  · intro h
    cases hsocket : calls.socket with
    | error e => exact .inr ⟨e, rfl⟩
    | ok fd =>
        left
        by_contra hfailed
        have herr : (initServer config calls p).1 ≠ Err.noError.code :=
          fun hnone => hfailed (h.noError_iff.mp hnone).1
        have hfd := h.socket herr
        rw [initServer_keeps_socket hsocket] at hfd
        omega
  · rintro (⟨fd, hsocket, hrest⟩ | ⟨e, hsocket⟩)
    · have hresult := initServer_succeeded (p := p) hsocket hrest
      constructor
      · rw [hresult]
        exact ⟨fun _ => ⟨⟨fd, hsocket, hrest⟩, rfl⟩, fun _ => rfl⟩
      all_goals
        intro herr
        exact absurd (by rw [hresult]) herr
    · have hresult := initServer_socket_failed config p hsocket
      constructor
      · have he : -((e : ℕ) : ℤ) ≠ 0 := by simp
        rw [hresult]
        refine ⟨fun hnone => absurd hnone he, ?_⟩
        rintro ⟨⟨fd, hok, -⟩, -⟩
        rw [hsocket] at hok
        cases hok
      · intro _
        rw [hresult]
      · intro _ fd hok
        rw [hsocket] at hok
        cases hok
      · intro _
        rw [hresult]
      · intro _
        rw [hresult]
        rfl

def portInUse : StartupCalls where
  socket := .ok 3
  setsockopt := fun _ _ _ _ => .ok ()
  bind := fun _ _ => .error 98
  listen := fun _ _ => .ok ()
  ioUringQueueInit := fun _ => .ok ()

def noUring : StartupCalls where
  socket := .ok 3
  setsockopt := fun _ _ _ _ => .ok ()
  bind := fun _ _ => .ok ()
  listen := fun _ _ => .ok ()
  ioUringQueueInit := fun _ => .error 38

/-- A start that fails with `EADDRINUSE` leaves an open socket that `server_start` runs with, and
one that fails with `ENOSYS` at the io_uring is reported as a success. -/
theorem init_server_not_atomic :
    initServer none portInUse (.initial 0 [0, 1, 2]) =
        (-98, { ServerProcess.initial 98 [3, 0, 1, 2] with mServerSocket := 3 }) ∧
      initServer none noUring (.initial 0 [0, 1, 2]) =
        (0, { ServerProcess.initial 0 [3, 0, 1, 2] with mServerSocket := 3 }) ∧
      ¬ InitAtomic none portInUse (.initial 0 [0, 1, 2]) ∧
      ¬ InitAtomic none noUring (.initial 0 [0, 1, 2]) := by
  refine ⟨by decide, by decide, ?_, ?_⟩
  · intro h
    exact absurd (h.socket (by decide)) (by decide)
  · intro h
    obtain ⟨-, hconfig⟩ := h.noError_iff.mp (by decide)
    exact absurd hconfig (by decide)

end CmcServer
