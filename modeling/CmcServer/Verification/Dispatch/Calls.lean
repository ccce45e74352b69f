import CmcServer.Model.Dispatch
import CmcServer.Verification.Receiver.Simulation

/-! # Calls of `dispatch_packet`

A dispatcher that keeps a record of its calls, and the parts of a call that its results are
explained by. -/

namespace CmcServer

open ProtoDef

/-- One call of `dispatch_packet`: its arguments, the worlds around it and its result. -/
structure DispatchCall where
  data : List UInt8
  size : ℤ
  before : World App
  err : Err
  after : World App

/-- A dispatcher that records its calls. -/
def observed (dispatch : Dispatch App) : Dispatch (App × List DispatchCall) := fun data size w =>
  let before : World App := ⟨w.pools, w.app.1⟩
  let (err, after) := dispatch data size before
  (err, ⟨after.pools, after.app, w.app.2 ++ [⟨data, size, before, err, after⟩]⟩)

theorem observed_eq (dispatch : Dispatch App) (data : List UInt8) (size : ℤ)
    (w : World (App × List DispatchCall)) :
    observed dispatch data size w =
      ((dispatch data size ⟨w.pools, w.app.1⟩).1,
        ⟨(dispatch data size ⟨w.pools, w.app.1⟩).2.pools,
          (dispatch data size ⟨w.pools, w.app.1⟩).2.app,
          w.app.2 ++ [⟨data, size, ⟨w.pools, w.app.1⟩, (dispatch data size ⟨w.pools, w.app.1⟩).1,
            (dispatch data size ⟨w.pools, w.app.1⟩).2⟩]⟩) := rfl

/-! ## Records change nothing -/

def World.forget (w : World (App × List DispatchCall)) : World App := ⟨w.pools, w.app.1⟩

def Pass.forget : Pass (App × List DispatchCall) → Pass App
  | .failed err rs w => .failed err rs w.forget
  | .suspended rs w => .suspended rs w.forget
  | .finished rs w data => .finished rs w.forget data

section

variable (config : ServerConfig) (dispatch : Dispatch App)

theorem returnPacket_forget (rs : ReceiverState) (w : World (App × List DispatchCall)) :
    returnPacket rs w.forget = ((returnPacket rs w).1, (returnPacket rs w).2.forget) := by
  rw [returnPacket, returnPacket]
  split
  · cases rs.packet <;> rfl
  · rfl

theorem packetReady_forget (rs : ReceiverState) (w : World (App × List DispatchCall))
    (data : List UInt8) :
    (packetReady (observed dispatch) rs w data).forget =
      packetReady dispatch rs w.forget data := by
  rw [packetReady, packetReady]
  split
  · rfl
  · rcases hresult : dispatch (rs.packet.bytes w.pools rs.packetLength.toNat) rs.packetLength
      w.forget with ⟨err, w'⟩
    rw [observed_eq]
    simp only [World.forget] at hresult
    simp only [World.forget, hresult]
    cases err with
    | noError =>
        have hreturn := returnPacket_forget rs ⟨w'.pools, w'.app, w.app.2 ++
          [⟨rs.packet.bytes w.pools rs.packetLength.toNat, rs.packetLength,
            ⟨w.pools, w.app.1⟩, .noError, w'⟩]⟩
        change returnPacket rs w' = _ at hreturn
        dsimp only
        rw [hreturn]
        rfl
    | _ => rfl

theorem copyPayload_forget (rs : ReceiverState) (w : World (App × List DispatchCall))
    (data : List UInt8) :
    (copyPayload (observed dispatch) rs w data).forget =
      copyPayload dispatch rs w.forget data := by
  have hcopy : (copyIn rs w data).forget = copyIn rs w.forget data := by
    rw [copyIn, copyIn]
    cases rs.packet <;> rfl
  rw [copyPayload, copyPayload]
  split
  · rw [← hcopy]
    rfl
  · split
    · rw [packetReady_forget, hcopy]
    · rw [← hcopy]
      rfl

theorem receiverPass_forget (rs : ReceiverState) (w : World (App × List DispatchCall))
    (data : List UInt8) :
    (receiverPass config (observed dispatch) rs w data).forget =
      receiverPass config dispatch rs w.forget data := by
  have hlength : ∀ fetch, (afterLength config (observed dispatch) w fetch).forget =
      afterLength config dispatch w.forget fetch := by
    intro fetch
    cases fetch with
    | suspended rs => rfl
    | tooLong rs => rfl
    | fetched rs data =>
        rw [afterLength, afterLength, receivePayload, receivePayload]
        split
        · exact packetReady_forget dispatch _ w _
        · split
          · rfl
          · exact copyPayload_forget dispatch _ ⟨_, w.app⟩ data
  rw [receiverPass, receiverPass]
  split
  · exact hlength _
  · split
    · exact hlength _
    · split
      · exact copyPayload_forget dispatch rs w data
      · rfl

theorem receiverConsumeData_forget (rs : ReceiverState) (w : World (App × List DispatchCall))
    (data : List UInt8) :
    receiverConsumeData config dispatch rs w.forget data =
      ((receiverConsumeData config (observed dispatch) rs w data).1,
        (receiverConsumeData config (observed dispatch) rs w data).2.1,
        (receiverConsumeData config (observed dispatch) rs w data).2.2.forget) := by
  induction rs, w, data using receiverConsumeData.induct config (observed dispatch) with
  | case1 rs w => rw [receiverConsumeData, receiverConsumeData, if_pos rfl, if_pos rfl]
  | case2 rs w data hdata err rs' w' hpass =>
      have hforget := receiverPass_forget config dispatch rs w data
      rw [hpass] at hforget
      rw [receiverConsumeData_eq hdata, receiverConsumeData_eq hdata, hpass, ← hforget]
      simp only [Pass.forget, returnPacket_forget]
  | case3 rs w data hdata rs' w' hpass =>
      have hforget := receiverPass_forget config dispatch rs w data
      rw [hpass] at hforget
      rw [receiverConsumeData_eq hdata, receiverConsumeData_eq hdata, hpass, ← hforget]
      rfl
  | case4 rs w data hdata rs' w' rest hpass ih =>
      have hforget := receiverPass_forget config dispatch rs w data
      rw [hpass] at hforget
      rw [receiverConsumeData_eq hdata, receiverConsumeData_eq hdata, hpass, ← hforget]
      exact ih

end

section

variable (build : Build) (config : ServerConfig)

/-- `receiver_consume_data` of a client, with the record `calls` of the earlier calls. -/
def consumeObserved (calls : List DispatchCall) (rs : ReceiverState) (w : World App)
    (data : List UInt8) : Err × ReceiverState × World (App × List DispatchCall) :=
  receiverConsumeData config (observed (dispatcher build config rs.compression)) rs
    ⟨w.pools, w.app, calls⟩ data

theorem consume_eq (calls : List DispatchCall) (rs : ReceiverState) (w : World App)
    (data : List UInt8) :
    let result := consumeObserved build config calls rs w data
    consume build config rs w data = (result.1, result.2.1, result.2.2.forget) :=
  receiverConsumeData_forget config (dispatcher build config rs.compression) rs
    ⟨w.pools, w.app, calls⟩ data

end

/-! ## Decoding -/

def readPacketId (data : List UInt8) (size : ℤ) (w : World App) : VarintRead :=
  protocolReadVarint (Bytes.ofList data (w.app.surroundings 0).beyond) size 0

section

variable (build : Build)

/-- What the reader of a packet starts from in its `dispatch` function. -/
def readerStart (data : List UInt8) (size : ℤ) (w : World App) : Core :=
  let now := w.app.surroundings 0
  let (arena, arenas) := (now.arenas w.app.arenas).getTickArena
  { buffer := Bytes.ofList data now.beyond
    data := 0
    size
    arena := arenas.arena arena
    mem := packetMemory now.stale
    touched := 0
    counts := [] }

/-- The call of the reader in a `dispatch` function: the size it returns and what it leaves. -/
def readPacket (name : String) (t : Ty) (data : List UInt8) (size : ℤ) (w : World App) :
    Option (ℤ × Core) :=
  (callFunction build.sizeof (generateRead build.rnd name t) [] (readerStart data size w)).filter
    fun result => result.2.touched ≤ size + (w.app.surroundings 0).mapped

/-- A reader that stays in mapped memory returns. -/
theorem readPacket_of_touched {name : String} {t : Ty} {data : List UInt8} {size ret : ℤ}
    {w : World App} {s : Core}
    (hcall : callFunction build.sizeof (generateRead build.rnd name t) []
      (readerStart data size w) = some (ret, s)) (htouched : (s.touched : ℤ) ≤ size) :
    readPacket build name t data size w = some (ret, s) := by
  have hle : (s.touched : ℤ) ≤ size + (w.app.surroundings 0).mapped :=
    htouched.trans (le_add_of_nonneg_right (Int.natCast_nonneg _))
  rw [readPacket, hcall, Option.filter_some, if_pos (decide_eq_true hle)]

theorem callFunction_of_readPacket {name : String} {t : Ty} {data : List UInt8} {size : ℤ}
    {w : World App} {result : ℤ × Core} (h : readPacket build name t data size w = some result) :
    callFunction build.sizeof (generateRead build.rnd name t) [] (readerStart data size w) =
      some result :=
  (Option.filter_eq_some_iff.mp h).1

/-- The world in which a handler runs, once the reader has left `s`. -/
def handlerWorld (s : Core) (w : World App) : World App :=
  let (arena, arenas) := ((w.app.surroundings 0).arenas w.app.arenas).getTickArena
  { w with app := { w.app with
    arenas := arenas.modify arena fun _ => s.arena
    surroundings := fun n => w.app.surroundings (n + 1) } }

/-- The end of a `dispatch` function, which gives back the arena that it got in `w`. -/
def releaseArena (w w' : World App) : World App :=
  let (arena, _) := ((w.app.surroundings 0).arenas w.app.arenas).getTickArena
  { w' with app := { w'.app with arenas := w'.app.arenas.returnTickArena arena } }

@[simp] theorem handlerWorld_pools (s : Core) (w : World App) :
    (handlerWorld s w).pools = w.pools := rfl

@[simp] theorem handlerWorld_state (s : Core) (w : World App) :
    (handlerWorld s w).app.state = w.app.state := rfl

@[simp] theorem handlerWorld_net (s : Core) (w : World App) :
    (handlerWorld s w).app.net = w.app.net := rfl

@[simp] theorem releaseArena_pools (w w' : World App) :
    (releaseArena w w').pools = w'.pools := rfl

@[simp] theorem releaseArena_state (w w' : World App) :
    (releaseArena w w').app.state = w'.app.state := rfl

@[simp] theorem releaseArena_net (w w' : World App) :
    (releaseArena w w').app.net = w'.app.net := rfl

theorem dispatchTyped_eq (name : String) (t : Ty)
    (process : (Loc → ℤ) → World App → Option (Err × World App)) (data : List UInt8) (size : ℤ)
    (w : World App) :
    dispatchTyped build name t process data size w =
      match readPacket build name t data size w with
      | none => none
      | some (readSize, s) =>
          (if readSize ≠ size then some (.protocol, handlerWorld s w)
            else process s.mem (handlerWorld s w)).map fun result =>
              (result.1, releaseArena w result.2) := rfl

end

end CmcServer
