/-
# HTTP/2 flow control over whole connections

Client and peer start with the same windows. Each kind of step is judged on its own: what it has to
be like so that the client sends only what the peer allows and both still agree on the windows
afterwards. Most steps change no window and only write control frames. Data and requests are the
others.
-/

import SmartOs.CS.Run
import SmartOs.Net.Http2View

open SmartOs.Math List
open SmartOs.Net.Hpack (Header)
open SmartOs.CS (Run Guarded)

namespace SmartOs.Net.Http2

variable {id : UInt32} {frames : List Frame} {w : ℤ} {s : System}

/-! ## Frames that no books are kept of -/

/-- A frame that opens no stream and changes no window. -/
def Frame.Control (f : Frame) : Prop :=
  f.kind ≠ .headers ∧ f.kind ≠ .data ∧ f.kind ≠ .windowUpdate
  deriving Decidable

variable {p : Peer}

theorem Peer.receives_of_control {f : Frame} (control : f.Control) : p.receives f = p := by
  obtain ⟨headers, data, windowUpdate⟩ := control
  unfold receives
  cases kind : f.kind <;> first | rfl | exact absurd kind (by assumption)

theorem Peer.foldl_reads_of_control
    (control : ∀ f ∈ frames, f.Fits ∧ f.Control) : frames.foldl Peer.reads p = p := by
  induction frames with
  | nil => rfl
  | cons f frames ih =>
    obtain ⟨fits, here⟩ := control f mem_cons_self
    rw [foldl_cons, reads_eq fits, receives_of_control here]
    exact ih fun g later => control g (mem_cons_of_mem f later)

theorem Peer.allowsAll_iff_of_control (control : ∀ f ∈ frames, f.Fits ∧ f.Control) :
    p.AllowsAll frames ↔ ∀ f ∈ frames, f.payload.length ≤ p.maxFrameSize.toNat := by
  induction frames with
  | nil => simp [AllowsAll]
  | cons f frames ih =>
    obtain ⟨fits, here⟩ := control f mem_cons_self
    have later := ih fun g later => control g (mem_cons_of_mem f later)
    rw [AllowsAll, reads_eq fits, receives_of_control here, later]
    simp [Allows, here.2.1]

/-! ## The invariant -/

/-- Client and peer agree on the windows and the settings. The windows of the client are in range,
and its streams have odd numbers. -/
structure Inv (v : View) (p : Peer) : Prop where
  connection : v.localWindow = p.connectionWindow
  stream : ∀ id w, v.windows id = some w → w = p.streamWindow id
  maxFrameSize : v.maxFrameSize = p.maxFrameSize
  initialWindow : v.initialWindow = p.initialWindow
  connectionRange : Http2Connection.InRange v.localWindow
  streamRange : ∀ id w, v.windows id = some w → Http2Connection.InRange w
  odd : v.nextStreamId.toNat % 2 = 1
  noZero : v.windows 0 = none

theorem System.agrees_iff : s.Agrees ↔ s.client.view.localWindow = s.peer.connectionWindow ∧
      ∀ id w, s.client.view.windows id = some w → w = s.peer.streamWindow id := by
  simp [System.Agrees, Http2Connection.view, Http2Connection.windows]

theorem Inv.ne_zero {v : View} (inv : Inv v p)
    (here : v.windows id = some w) : id ≠ 0 := by
  rintro rfl
  simp [inv.noZero] at here

theorem Inv.agrees (inv : Inv s.client.view s.peer) : s.Agrees :=
  System.agrees_iff.mpr ⟨inv.connection, inv.stream⟩

theorem Inv.start : Inv System.start.client.view System.start.peer where
  connection := rfl
  stream := by rintro id w ⟨⟩
  maxFrameSize := rfl
  initialWindow := rfl
  connectionRange := ⟨by decide, by decide⟩
  streamRange := by rintro id w ⟨⟩
  odd := rfl
  noZero := rfl

/-! ## Steps that leave the windows alone -/

/-- The view at the start of a call, when nothing has been written. -/
def View.fresh (v : View) : View := { v with outbox := [] }

/-- A step that changes no window and only writes control frames. -/
structure Quiet (s : System) (event : Event) (frames : List Frame) : Prop where
  view : ∃ windows, (∀ id w, windows id = some w → s.client.windows id = some w) ∧
    (s.client.step event).view =
      ({ s.client.view.fresh with windows }.withSettings (s.peerBefore event)).writes frames
  connection : (s.peerBefore event).connectionWindow = s.peer.connectionWindow
  stream : (s.peerBefore event).streamWindow = s.peer.streamWindow
  control : ∀ f ∈ frames, f.Fits ∧ f.Control

namespace Quiet

variable {s : System} {event : Event} {frames : List Frame}

section

variable (quiet : Quiet s event frames)
include quiet

theorem outbox : (s.client.step event).outbox = frames := by
  obtain ⟨windows, -, view⟩ := quiet.view
  exact congrArg View.outbox view

theorem obeys_iff : s.Obeys event ↔
      ∀ f ∈ frames, f.payload.length ≤ (s.peerBefore event).maxFrameSize.toNat := by
  rw [System.Obeys, quiet.outbox]
  exact Peer.allowsAll_iff_of_control quiet.control

theorem inv (before : Inv s.client.view s.peer) :
    Inv (s.step event).client.view (s.step event).peer := by
  have peer : (s.step event).peer = s.peerBefore event := by
    rw [System.step, quiet.outbox]
    exact Peer.foldl_reads_of_control quiet.control
  have client : (s.step event).client = s.client.step event := rfl
  obtain ⟨windows, kept, view⟩ := quiet.view
  rw [peer, client, view]
  refine ⟨?_, ?_, rfl, rfl, before.connectionRange, ?_, before.odd, ?_⟩
  · rw [quiet.connection]
    exact before.connection
  · intro id w found
    rw [quiet.stream]
    exact before.stream id w (kept id w found)
  · intro id w found
    exact before.streamRange id w (kept id w found)
  · cases none : windows 0 with
    | none => exact none
    | some w => exact absurd rfl (before.ne_zero (kept 0 w none))

/-- Such a step is fine if the peer takes the frames. -/
theorem fulfils_iff (before : Inv s.client.view s.peer)
    (readable : ∀ f, event.frame = some f → s.Readable f) :
    (s.Obeys event ∧ (s.step event).Agrees) ∧ s.Framed event ↔
      ∀ f ∈ frames, f.payload.length ≤ (s.peerBefore event).maxFrameSize.toNat := by
  have framed : s.Framed event := by
    refine ⟨?_, readable⟩
    rw [quiet.outbox]
    exact fun f sent => (quiet.control f sent).1
  rw [quiet.obeys_iff]
  exact ⟨fun all => all.1.1, fun fit => ⟨⟨fit, (quiet.inv before).agrees⟩, framed⟩⟩

end

end Quiet

theorem Peer.foldl_applySetting_windows (p : Peer) (settings : List (UInt16 × UInt32)) :
    (settings.foldl Peer.applySetting p).connectionWindow = p.connectionWindow ∧
      (settings.foldl Peer.applySetting p).streamWindow = p.streamWindow := by
  induction settings generalizing p with
  | nil => exact ⟨rfl, rfl⟩
  | cons setting settings ih =>
    have single : (p.applySetting setting).connectionWindow = p.connectionWindow ∧
        (p.applySetting setting).streamWindow = p.streamWindow := by
      unfold applySetting
      split_ifs <;> exact ⟨rfl, rfl⟩
    rw [foldl_cons, (ih _).1, (ih _).2]
    exact single

/-- Only data that is there changes a window of the peer. -/
theorem Peer.sends_windows {f : Frame} (silent : f.kind = .data → f.payload = []) :
    (p.sends f).connectionWindow = p.connectionWindow ∧
      (p.sends f).streamWindow = p.streamWindow := by
  unfold sends
  cases kind : f.kind with
  | data => simp [silent kind]
  | settings =>
    dsimp only
    split_ifs
    · exact ⟨rfl, rfl⟩
    · exact p.foldl_applySetting_windows _
  | windowUpdate =>
    split_ifs <;> exact ⟨rfl, rfl⟩
  | _ => exact ⟨rfl, rfl⟩

theorem Peer.sends_settings (p : Peer) {f : Frame} (notSettings : f.kind ≠ .settings) :
    (p.sends f).maxFrameSize = p.maxFrameSize ∧ (p.sends f).initialWindow = p.initialWindow := by
  unfold sends
  cases kind : f.kind with
  | settings => exact absurd kind notSettings
  | windowUpdate =>
    split_ifs <;> exact ⟨rfl, rfl⟩
  | _ => exact ⟨rfl, rfl⟩

section Steps

open Http2Connection

variable {s : System} {f : Frame} (inv : Inv s.client.view s.peer) {event : Event}
  {frames : List Frame}

theorem Quiet.of_frame (frame : event.frame = some f) (silent : f.kind = .data → f.payload = [])
    (view : (s.client.step event).view =
      (s.client.view.fresh.withSettings (s.peer.sends f)).writes frames)
    (control : ∀ f ∈ frames, f.Fits ∧ f.Control) : Quiet s event frames := by
  have peer : s.peerBefore event = s.peer.sends f := by rw [System.peerBefore, frame]; rfl
  obtain ⟨connection, stream⟩ := s.peer.sends_windows silent
  refine ⟨⟨s.client.windows, fun _ _ here => here, ?_⟩, ?_, ?_, control⟩
  · rw [peer, view]
    rfl
  · rw [peer, connection]
  · rw [peer, stream]

theorem Inv.withSettings_sends (inv : Inv s.client.view s.peer) (notSettings : f.kind ≠ .settings) :
    s.client.view.fresh.withSettings (s.peer.sends f) = s.client.view.fresh := by
  obtain ⟨maxFrameSize, initialWindow⟩ := s.peer.sends_settings notSettings
  rw [View.withSettings, maxFrameSize, initialWindow, ← inv.maxFrameSize, ← inv.initialWindow]
  rfl

theorem read_eq {c : Http2Connection} (handle : Http2Connection → Frame → Outcome Unit)
    (fits : f.Fits) (allowed : f.payload.length ≤ c.peerMaxFrameSize.toNat) :
    c.read f handle = (handle c f).2 := by
  simp [Http2Connection.read, recvFrame_encodeFrame fits allowed]

theorem step_receive (readable : s.Readable f) :
    s.client.step (.receive f) = (processFrame { s.client with outbox := [] } f).2 :=
  read_eq processFrame readable.1 readable.2

theorem step_setup (readable : s.Readable f) :
    s.client.step (.setup f) = (connectFrame { s.client with outbox := [] } f).2 :=
  read_eq connectFrame readable.1 readable.2

def ackFrame : Frame := ⟨0x4, flagAck, 0, []⟩

theorem ackFrame_control : ackFrame.Fits ∧ ackFrame.Control := by decide

/-- What the client writes when it reads settings. -/
def settingsReply (f : Frame) : List Frame := if f.has flagAck then [] else [ackFrame]

theorem mem_settingsReply {f g : Frame} (sent : g ∈ settingsReply f) : g = ackFrame := by
  unfold settingsReply at sent
  split_ifs at sent <;> simp_all

include inv

theorem view_settings (kind : f.kind = .settings)
    {c : Http2Connection} (fresh : c.view = s.client.view.fresh) :
    (if f.has flagAck then c else (c.applySettings f.payload).sendFrame 0x4 flagAck 0 []).view =
      (s.client.view.fresh.withSettings (s.peer.sends f)).writes (settingsReply f) := by
  have maxFrameSize := (congrArg View.maxFrameSize fresh).trans inv.maxFrameSize
  have initialWindow := (congrArg View.initialWindow fresh).trans inv.initialWindow
  rw [← fresh, settingsReply]
  split_ifs with ack
  · have sent : s.peer.sends f = s.peer := by simp [Peer.sends, kind, ack]
    rw [sent, View.withSettings, ← maxFrameSize, ← initialWindow, View.writes_nil]
  have sent : s.peer.sends f = (settingsOf f.payload).foldl Peer.applySetting s.peer := by
    simp [Peer.sends, kind, ack]
  rw [sent, view_sendFrame, applySettings, view_foldl_applySetting maxFrameSize initialWindow]
  rfl

theorem quiet_receive (readable : s.Readable f) (notData : f.kind ≠ .data) :
    Quiet s (.receive f) (if f.kind = .settings then settingsReply f else reply f) := by
  have silent (data : f.kind = .data) : f.payload = [] := absurd data notData
  by_cases kind : f.kind = .settings
  · rw [if_pos kind]
    refine .of_frame rfl silent ?_ fun g sent => mem_settingsReply sent ▸ ackFrame_control
    rw [step_receive readable, ← @view_settings s f inv kind { s.client with outbox := [] } rfl,
      processFrame, kind]
    dsimp only
    split_ifs <;> rfl
  · rw [if_neg kind]
    refine .of_frame rfl silent ?_ ?_
    · rw [step_receive readable, view_processFrame _ notData kind, inv.withSettings_sends kind]
      rfl
    intro g sent
    unfold reply at sent
    split_ifs at sent with ping
    · obtain rfl := mem_singleton.mp sent
      have control : FrameType.ofByte 0x6 ≠ .headers ∧ FrameType.ofByte 0x6 ≠ .data ∧
          FrameType.ofByte 0x6 ≠ .windowUpdate := by decide
      have stream : (0 : UInt32).toNat < 2 ^ 31 := by decide
      exact ⟨⟨readable.1.1, stream⟩, control⟩
    · cases sent

theorem quiet_setup (readable : s.Readable f) (silent : f.kind = .data → f.payload = []) :
    Quiet s (.setup f) (if f.kind = .settings then settingsReply f else []) := by
  by_cases kind : f.kind = .settings
  · rw [if_pos kind]
    refine .of_frame rfl silent ?_ fun g sent => mem_settingsReply sent ▸ ackFrame_control
    rw [step_setup readable, ← @view_settings s f inv kind { s.client with outbox := [] } rfl,
      connectFrame, kind]
    cases ack : f.has flagAck
    · simp only [Bool.false_eq_true]
      split_ifs <;> rfl
    · simp only [if_true]
      split_ifs <;> rfl
  · rw [if_neg kind]
    refine .of_frame rfl silent ?_ (by simp)
    rw [step_setup readable, view_connectFrame _ kind, inv.withSettings_sends kind]
    rfl

omit inv

/-! ## Data -/

theorem Peer.allowsAll_append (front back : List Frame) : p.AllowsAll (front ++ back) ↔
      p.AllowsAll front ∧ (front.foldl Peer.reads p).AllowsAll back := by
  induction front generalizing p with
  | nil => simp [AllowsAll]
  | cons f front ih =>
    simp [AllowsAll, ih, and_assoc]

theorem incrementOf_be32 {x : UInt32} (small : x.toNat < 2 ^ 31) : incrementOf (be32 x) = x := by
  have whole : readBe32 (be32 x) 0 = x := @readBe32_of_drop _ [] 0 x (by simp)
  rw [incrementOf, whole, and_mask small]

/-- The peer adds the increment to the window it is for. -/
def Peer.raise (p : Peer) (id : UInt32) (increment : ℤ) : Peer :=
  if id = 0 then { p with connectionWindow := p.connectionWindow + increment }
  else
    { p with streamWindow := fun i =>
        if i = id then p.streamWindow i + increment else p.streamWindow i }

theorem Peer.raise_zero (id : UInt32) : p.raise id 0 = p := by
  unfold raise
  simp

theorem windowUpdates_fits (small : id.toNat < 2 ^ 31) {window : ℤ} :
    ∀ f ∈ windowUpdates id window, f.Fits := by
  intro f sent
  unfold windowUpdates at sent
  split_ifs at sent
  · obtain rfl := mem_singleton.mp sent
    refine ⟨?_, small⟩
    rw [length_be32]
    decide
  · cases sent

theorem Peer.foldl_reads_windowUpdates (p : Peer) (small : id.toNat < 2 ^ 31)
    {window : ℤ} (moderate : Moderate window) :
    (windowUpdates id window).foldl Peer.reads p = p.raise id (toppedUp window - window) := by
  have fits := @windowUpdates_fits id small window
  unfold windowUpdates toppedUp at *
  split_ifs with low
  · rw [if_pos low] at fits
    rw [foldl_cons, reads_eq (fits _ mem_cons_self)]
    obtain ⟨bounded, -⟩ := moderate
    have small : (65535 - window).toNat < 2 ^ 31 := by omega
    have value : (UInt32.ofNat (65535 - window).toNat).toNat = (65535 - window).toNat :=
      UInt32.toNat_ofNat_of_lt' (small.trans (by decide))
    have increment : ((incrementOf (be32 (UInt32.ofNat (65535 - window).toNat))).toNat : ℤ) =
        65535 - window := by
      rw [incrementOf_be32 (by omega)]
      omega
    have kind : FrameType.ofByte 0x8 = .windowUpdate := by decide
    simp [receives, Frame.kind, kind, increment, raise]
  · rw [Int.sub_self, raise_zero]
    rfl

theorem Peer.allowsAll_windowUpdates {window : ℤ} :
    p.AllowsAll (windowUpdates id window) ↔ (window < 32768 → 4 ≤ p.maxFrameSize.toNat) := by
  have kind : FrameType.ofByte 0x8 ≠ .data := by decide
  unfold windowUpdates
  split_ifs with low
  · simp [AllowsAll, Allows, Frame.kind, kind, low]
  · simp [AllowsAll, low]

theorem Frame.not_settings (kind : f.kind = .data) : f.kind ≠ .settings := by
  rw [kind]
  decide

theorem peerBefore_data (kind : f.kind = .data) : s.peer.sends f = { s.peer with
        connectionWindow := s.peer.connectionWindow - f.payload.length
        streamWindow := fun i =>
          if i = f.streamId then s.peer.streamWindow i - f.payload.length
          else s.peer.streamWindow i } := by
  simp [Peer.sends, kind]

/-- Data during the set-up of a connection is not counted. -/
theorem not_agrees_setup (inv : Inv s.client.view s.peer) (readable : s.Readable f)
    (kind : f.kind = .data) (full : f.payload ≠ []) : ¬(s.step (.setup f)).Agrees := by
  have view : (s.client.step (.setup f)).view = s.client.view.fresh := by
    rw [step_setup readable, view_connectFrame _ (f.not_settings kind)]
    rfl
  have outbox : (s.client.step (.setup f)).outbox = [] := congrArg View.outbox view
  have peer : (s.step (.setup f)).peer = s.peer.sends f := by
    simp only [System.step, outbox]
    rfl
  intro agrees
  have connection := (System.agrees_iff.mp agrees).1
  rw [peer, peerBefore_data kind, show (s.step (.setup f)).client.view = s.client.view.fresh
    from view] at connection
  have before := inv.connection
  dsimp only [View.fresh] at connection
  exact full (length_eq_zero_iff.mp (by omega))

@[simp] theorem Peer.maxFrameSize_raise (id : UInt32) (increment : ℤ) :
    (p.raise id increment).maxFrameSize = p.maxFrameSize := by
  unfold raise
  split_ifs <;> rfl

@[simp] theorem Peer.initialWindow_raise (id : UInt32) (increment : ℤ) :
    (p.raise id increment).initialWindow = p.initialWindow := by
  unfold raise
  split_ifs <;> rfl

/-- The data as the client counts it. -/
def countedLength (f : Frame) : ℕ := (stripPadding f.payload f.flags).length

/-- The frames that the client writes when it has received data. -/
def dataReply (c : Http2Connection) (f : Frame) : List Frame :=
  windowUpdates 0 (c.localWindow - countedLength f) ++
    (c.windows f.streamId).elim [] fun w => windowUpdates f.streamId (w - countedLength f)

/-- The view after data has been received. -/
def dataView (c : Http2Connection) (f : Frame) : View :=
  { c.view.fresh with
    localWindow := toppedUp (c.localWindow - countedLength f)
    windows := changeAt c.windows f.streamId fun w => toppedUp (w - countedLength f) }

theorem countedLength_lt (fits : f.Fits) : countedLength f < 2 ^ 24 :=
  (length_stripPadding_le f.payload f.flags).trans_lt fits.1

theorem view_receive_data (inv : Inv s.client.view s.peer) (readable : s.Readable f)
    (kind : f.kind = .data) :
    (s.client.step (.receive f)).view = (dataView s.client f).writes (dataReply s.client f) := by
  rw [step_receive readable, processFrame, kind]
  exact view_processData rfl (countedLength_lt readable.1) inv.connectionRange
    (inv.streamRange f.streamId)

theorem dataReply_fits {c : Http2Connection} (fits : f.Fits) : ∀ g ∈ dataReply c f, g.Fits := by
  intro g sent
  rcases mem_append.mp sent with connection | stream
  · exact windowUpdates_fits (by decide) g connection
  cases here : c.windows f.streamId with
  | none =>
    rw [here] at stream
    cases stream
  | some w =>
    rw [here] at stream
    exact windowUpdates_fits fits.2 g stream

/-- What the peer adds to a window when the client has counted `n` bytes of data for it. -/
def refund (window : ℤ) (n : ℕ) : ℤ := toppedUp (window - n) - (window - n)

/-- The peer once it has sent data and read the reply. -/
def peerAfterData (s : System) (f : Frame) : Peer :=
  let p := (s.peer.sends f).raise 0 (refund s.client.localWindow (countedLength f))
  (s.client.windows f.streamId).elim p fun w => p.raise f.streamId (refund w (countedLength f))

include inv

theorem foldl_reads_dataReply (fits : f.Fits) :
    (dataReply s.client f).foldl Peer.reads (s.peer.sends f) = peerAfterData s f := by
  have short := countedLength_lt fits
  have moderate : Moderate (s.client.localWindow - countedLength f) :=
    moderate_sub inv.connectionRange short
  rw [dataReply, foldl_append, Peer.foldl_reads_windowUpdates _ (by decide) moderate]
  unfold peerAfterData
  cases here : s.client.windows f.streamId with
  | none => rfl
  | some w =>
    exact Peer.foldl_reads_windowUpdates _ fits.2
      (moderate_sub (inv.streamRange f.streamId w here) short)

theorem allowsAll_dataReply (kind : f.kind = .data) (fits : f.Fits) :
    (s.peer.sends f).AllowsAll (dataReply s.client f) ↔
      (s.client.localWindow - countedLength f < 32768 → 4 ≤ s.client.peerMaxFrameSize.toNat) ∧
      ∀ w, s.client.windows f.streamId = some w → w - countedLength f < 32768 →
        4 ≤ s.client.peerMaxFrameSize.toNat := by
  have size : (s.peer.sends f).maxFrameSize = s.client.peerMaxFrameSize :=
    (s.peer.sends_settings (f.not_settings kind)).1.trans inv.maxFrameSize.symm
  have moderate : Moderate (s.client.localWindow - countedLength f) :=
    moderate_sub inv.connectionRange (countedLength_lt fits)
  rw [dataReply, Peer.allowsAll_append, Peer.allowsAll_windowUpdates, size,
    Peer.foldl_reads_windowUpdates _ (by decide) moderate]
  cases here : s.client.windows f.streamId with
  | none => simp [Peer.AllowsAll]
  | some w => simp [Peer.allowsAll_windowUpdates, size]

theorem connectionWindow_peerAfterData (kind : f.kind = .data) :
    (peerAfterData s f).connectionWindow = s.client.localWindow - f.payload.length +
        refund s.client.localWindow (countedLength f) := by
  have connection : s.client.localWindow = s.peer.connectionWindow := inv.connection
  unfold peerAfterData
  cases here : s.client.windows f.streamId with
  | none => simp [Peer.raise, peerBefore_data kind, connection]
  | some w =>
    have ne : f.streamId ≠ 0 := inv.ne_zero here
    simp [Peer.raise, peerBefore_data kind, connection, ne]

theorem streamWindow_peerAfterData (kind : f.kind = .data) (here : s.client.windows id = some w) :
    (peerAfterData s f).streamWindow id =
      if id = f.streamId then w - f.payload.length + refund w (countedLength f) else w := by
  have stream : w = s.peer.streamWindow id := inv.stream id w here
  have nonzero : id ≠ 0 := inv.ne_zero here
  unfold peerAfterData
  by_cases own : id = f.streamId
  · rw [← own, here]
    simp [Peer.raise, peerBefore_data kind, nonzero, ← own, stream]
  rw [if_neg own]
  cases s.client.windows f.streamId with
  | none => simp [Peer.raise, peerBefore_data kind, own, stream]
  | some v =>
    by_cases zero : f.streamId = 0
    · simp [Peer.raise, peerBefore_data kind, zero, nonzero, stream]
    · simp [Peer.raise, peerBefore_data kind, own, zero, stream]

theorem settings_peerAfterData (kind : f.kind = .data) :
    s.client.peerMaxFrameSize = (peerAfterData s f).maxFrameSize ∧
      s.client.peerInitialWindow = (peerAfterData s f).initialWindow := by
  obtain ⟨maxFrameSize, initialWindow⟩ := s.peer.sends_settings (f.not_settings kind)
  unfold peerAfterData
  rw [show s.client.peerMaxFrameSize = _ from inv.maxFrameSize, ← maxFrameSize,
    show s.client.peerInitialWindow = _ from inv.initialWindow, ← initialWindow]
  cases s.client.windows f.streamId <;> simp

omit inv

/-- A window after data comes from one before. -/
theorem windows_dataView {c : Http2Connection}
    (found : (dataView c f).windows id = some w) : ∃ before, c.windows id = some before ∧
      w = if id = f.streamId then toppedUp (before - countedLength f) else before := by
  have changed : changeAt c.windows f.streamId (fun w => toppedUp (w - countedLength f)) id =
      some w := found
  unfold changeAt at changed
  split_ifs at changed with own
  · obtain ⟨before, here, rfl⟩ := Option.map_eq_some_iff.mp changed
    exact ⟨before, own ▸ here, by rw [if_pos own]⟩
  · exact ⟨w, changed, by rw [if_neg own]⟩

/-- Data keeps the windows equal exactly if the client counts all of it. -/
theorem receive_data (inv : Inv s.client.view s.peer) (readable : s.Readable f)
    (kind : f.kind = .data) : ((s.step (.receive f)).Agrees ↔ countedLength f = f.payload.length) ∧
      (countedLength f = f.payload.length →
        Inv (s.step (.receive f)).client.view (s.step (.receive f)).peer) := by
  have view : (s.step (.receive f)).client.view =
      (dataView s.client f).writes (dataReply s.client f) :=
    view_receive_data inv readable kind
  have peer : (s.step (.receive f)).peer = peerAfterData s f := by
    have outbox : (s.client.step (.receive f)).outbox = dataReply s.client f :=
      congrArg View.outbox view
    simp only [System.step, outbox]
    exact foldl_reads_dataReply inv readable.1
  have kept (counted : countedLength f = f.payload.length) :
      Inv (s.step (.receive f)).client.view (s.step (.receive f)).peer := by
    obtain ⟨maxFrameSize, initialWindow⟩ := settings_peerAfterData inv kind
    obtain ⟨-, high⟩ : InRange s.client.localWindow := inv.connectionRange
    rw [view, peer]
    refine ⟨?_, ?_, maxFrameSize, initialWindow, ?_, ?_, inv.odd, ?_⟩
    · rw [connectionWindow_peerAfterData inv kind, refund]
      change toppedUp (s.client.localWindow - (countedLength f : ℤ)) = _
      omega
    · intro id w found
      obtain ⟨before, here, rfl⟩ := windows_dataView found
      rw [streamWindow_peerAfterData inv kind here, refund]
      split_ifs
      · omega
      · rfl
    · exact inRange_toppedUp (by omega)
    · intro id w found
      obtain ⟨before, here, rfl⟩ := windows_dataView found
      obtain ⟨low, high⟩ := inv.streamRange id before here
      split_ifs
      · exact inRange_toppedUp (by omega)
      · exact ⟨low, high⟩
    · cases found : (dataView s.client f).windows 0 with
      | none => exact found
      | some w =>
        obtain ⟨before, here, -⟩ := windows_dataView found
        exact absurd rfl (inv.ne_zero here)
  refine ⟨⟨?_, fun counted => (kept counted).agrees⟩, kept⟩
  intro agrees
  have connection := (System.agrees_iff.mp agrees).1
  rw [view, peer, connectionWindow_peerAfterData inv kind] at connection
  have after : toppedUp (s.client.localWindow - countedLength f) = s.client.localWindow -
      f.payload.length + refund s.client.localWindow (countedLength f) := connection
  unfold refund at after
  omega

/-! ## Requests -/

theorem odd_ne_zero (odd : id.toNat % 2 = 1) : id ≠ 0 := by
  rintro rfl
  exact absurd odd (by decide)

theorem odd_add_two (odd : id.toNat % 2 = 1) : (id + 2).toNat % 2 = 1 := by
  rw [UInt32.toNat_add]
  have two : (2 : UInt32).toNat = 2 := rfl
  omega

theorem reads_headersFrame {hpack : List UInt8} {hasBody : Bool}
    (fits : (headersFrame id hpack hasBody).Fits) : p.reads (headersFrame id hpack hasBody) =
      { p with
        streamIncrements := fun i => if i = id then 0 else p.streamIncrements i
        streamData := fun i => if i = id then 0 else p.streamData i
        streamWindow := fun i => if i = id then 65535 else p.streamWindow i } := by
  rw [Peer.reads_eq fits]
  rfl

/-- A body that has something to send. -/
def bodyFrame (id : UInt32) (data : List UInt8) : Frame := ⟨0x0, flagEndStream, id, data⟩

theorem requestFrames_cases (id : UInt32) (hpack : List UInt8) (body : Option (List UInt8)) :
    (requestFrames id hpack body = [headersFrame id hpack false] ∧
      ∀ data, body = some data → data = []) ∨
    ∃ data, data ≠ [] ∧ body = some data ∧
      requestFrames id hpack body = [headersFrame id hpack true, bodyFrame id data] := by
  cases body with
  | none => exact .inl ⟨rfl, by simp⟩
  | some data =>
    by_cases empty : data = []
    · exact .inl ⟨by rw [empty]; rfl, fun other same => (Option.some.inj same) ▸ empty⟩
    · exact .inr ⟨data, empty, rfl, by simp [requestFrames, empty, bodyFrame]⟩

variable {id : UInt32} {hpack : List UInt8} {body : Option (List UInt8)} {p : Peer}

/-- When the frames of a request can be put on the wire and the peer allows them. -/
theorem requestFrames_iff :
    (∀ g ∈ requestFrames id hpack body, g.Fits) ∧ p.AllowsAll (requestFrames id hpack body) ↔
      id.toNat < 2 ^ 31 ∧ (hpack.length < 2 ^ 24 ∧ hpack.length ≤ p.maxFrameSize.toNat) ∧
        ∀ data, body = some data → data ≠ [] →
          (data.length < 2 ^ 24 ∧ data.length ≤ p.maxFrameSize.toNat) ∧
          data.length ≤ p.initialWindow.toNat ∧
          p.connectionData + data.length ≤ p.connectionCredit := by
  have fits (hasBody : Bool) : (headersFrame id hpack hasBody).Fits ↔
      hpack.length < 2 ^ 24 ∧ id.toNat < 2 ^ 31 := Iff.rfl
  have headers (hasBody : Bool) : p.Allows (headersFrame id hpack hasBody) ↔
      hpack.length ≤ p.maxFrameSize.toNat := by
    have kind : FrameType.ofByte 0x1 ≠ .data := by decide
    simp [Peer.Allows, headersFrame, Frame.kind, kind]
  rcases requestFrames_cases id hpack body with ⟨frames, none⟩ | ⟨data, nonempty, rfl, frames⟩
  · rw [frames]
    simp only [forall_mem_singleton, Peer.AllowsAll, fits, headers, and_true]
    exact ⟨fun ⟨⟨short, small⟩, taken⟩ =>
        ⟨small, ⟨short, taken⟩, fun data some full => absurd (none data some) full⟩,
      fun ⟨small, ⟨short, taken⟩, _⟩ => ⟨⟨short, small⟩, taken⟩⟩
  · have whole : (bodyFrame id data).Fits ↔ data.length < 2 ^ 24 ∧ id.toNat < 2 ^ 31 := Iff.rfl
    have kind : FrameType.ofByte 0x0 = .data := by decide
    -- the peer has opened the stream when the body comes
    have allowed (onWire : (headersFrame id hpack true).Fits) :
        p.AllowsAll [headersFrame id hpack true, bodyFrame id data] ↔
          hpack.length ≤ p.maxFrameSize.toNat ∧ data.length ≤ p.maxFrameSize.toNat ∧
            p.connectionData + data.length ≤ p.connectionCredit ∧
            data.length ≤ p.initialWindow.toNat := by
      rw [Peer.AllowsAll, headers, reads_headersFrame onWire]
      simp [Peer.AllowsAll, Peer.Allows, bodyFrame, Frame.kind, kind]
    rw [frames, and_congr_right fun onWire => allowed (onWire _ mem_cons_self)]
    simp only [forall_mem_cons, fits, whole, Option.some.injEq, forall_eq', ne_eq, nonempty,
      not_false_eq_true, true_imp_iff]
    tauto

/-- A request opens its stream in the books of the peer and changes no other window or setting. -/
theorem foldl_reads_requestFrames (fits : ∀ g ∈ requestFrames id hpack body, g.Fits) :
    let q := (requestFrames id hpack body).foldl Peer.reads p
    q.maxFrameSize = p.maxFrameSize ∧ q.initialWindow = p.initialWindow ∧
      q.connectionWindow = p.connectionWindow ∧
      q.streamWindow = fun i => if i = id then 65535 else p.streamWindow i := by
  rcases requestFrames_cases id hpack body with ⟨frames, none⟩ | ⟨data, nonempty, rfl, frames⟩
  · rw [frames] at fits ⊢
    have opened := reads_headersFrame (p := p) (fits _ mem_cons_self)
    simp [opened]
  · rw [frames] at fits ⊢
    have opened := reads_headersFrame (p := p) (fits _ mem_cons_self)
    have body : (bodyFrame id data).Fits := fits _ (by simp)
    simp only [foldl_cons, opened, Peer.reads_eq body]
    exact ⟨rfl, rfl, rfl, rfl⟩

/-! ## Every step -/

/-- What a step has to fulfil, next to frames that can be put on the wire and read. -/
def System.Fulfils (s : System) (event : Event) : Prop :=
  (s.Obeys event ∧ (s.step event).Agrees) ∧ s.Framed event

/-- A step fulfils it exactly if it is a good one, and then keeps the invariant. -/
def System.Judged (s : System) (event : Event) : Prop :=
  (s.Fulfils event ↔ s.Good event) ∧
    (s.Good event → Inv (s.step event).client.view (s.step event).peer)

include inv

/-- A call that at most closes streams, and only writes control frames. -/
theorem judged_of_call {windows : UInt32 → Option ℤ}
    (kept : ∀ id w, windows id = some w → s.client.windows id = some w) (call : event.frame = none)
    (view : (s.client.step event).view = { s.client.view.fresh with windows }.writes frames)
    (control : ∀ f ∈ frames, f.Fits ∧ f.Control)
    (good : s.Good event ↔ ∀ f ∈ frames, f.payload.length ≤ s.client.peerMaxFrameSize.toNat) :
    s.Judged event := by
  have peer : s.peerBefore event = s.peer := by rw [System.peerBefore, call]; rfl
  have quiet : Quiet s event frames := by
    refine ⟨⟨windows, kept, ?_⟩, by rw [peer], by rw [peer], control⟩
    rw [peer, view, View.withSettings, ← inv.maxFrameSize, ← inv.initialWindow]
    rfl
  have size : s.client.peerMaxFrameSize = s.peer.maxFrameSize := inv.maxFrameSize
  refine ⟨?_, fun _ => quiet.inv inv⟩
  rw [System.Fulfils, quiet.fulfils_iff inv (by simp [call]), good, peer, size]

theorem judged_connect : s.Judged .connect := by
  refine @judged_of_call s inv _ [⟨0x4, 0, 0, _⟩] _ (fun _ _ here => here) rfl rfl ?_ ?_
  · simp only [forall_mem_singleton]
    decide
  · simp only [forall_mem_singleton]
    exact Iff.rfl

theorem judged_shutdown : s.Judged .shutdown := by
  refine @judged_of_call s inv _ [⟨0x7, 0, 0, _⟩] _ (fun _ _ here => here) rfl rfl ?_ ?_
  · have control : FrameType.ofByte 0x7 ≠ .headers ∧ FrameType.ofByte 0x7 ≠ .data ∧
        FrameType.ofByte 0x7 ≠ .windowUpdate := by decide
    simp only [forall_mem_singleton]
    exact ⟨⟨by simp, (by decide : (0 : UInt32).toNat < 2 ^ 31)⟩, control⟩
  · simp only [forall_mem_singleton]
    exact Iff.rfl

theorem judged_finish : s.Judged (.finish id) := by
  obtain ⟨windows, kept, view⟩ := view_finish { s.client with outbox := [] } id
  refine @judged_of_call s inv _ [] windows kept rfl ?_ (by simp) (by simp [System.Good])
  rw [step, view, View.writes_nil]
  rfl

omit inv

theorem judged_of_not_readable (frame : event.frame = some f) (unreadable : ¬ s.Readable f)
    (good : s.Good event → s.Readable f) : s.Judged event :=
  ⟨⟨fun ⟨_, _, readable⟩ => absurd (readable f frame) unreadable,
    fun isGood => absurd (good isGood) unreadable⟩, fun isGood => absurd (good isGood) unreadable⟩

include inv

/-- A readable frame other than data is good if the peer takes the reply. -/
theorem judged_of_quiet (frame : event.frame = some f) (readable : s.Readable f)
    (quiet : Quiet s event frames)
    (taken : ∀ g ∈ frames, g.payload.length ≤ (s.peer.sends f).maxFrameSize.toNat)
    (good : s.Good event) : s.Judged event := by
  have peer : s.peerBefore event = s.peer.sends f := by rw [System.peerBefore, frame]; rfl
  refine ⟨iff_of_true ?_ good, fun _ => quiet.inv inv⟩
  rw [System.Fulfils, quiet.fulfils_iff inv (by simpa [frame] using readable), peer]
  exact taken

theorem judged_setup : s.Judged (.setup f) := by
  by_cases readable : s.Readable f
  · by_cases silent : f.kind = .data → f.payload = []
    · refine judged_of_quiet inv rfl readable (quiet_setup inv readable silent) ?_
        ⟨readable, silent⟩
      intro g sent
      split_ifs at sent
      · rw [mem_settingsReply sent]
        exact Nat.zero_le _
      · cases sent
    · obtain ⟨kind, full⟩ := Classical.not_imp.mp silent
      have disagrees := not_agrees_setup inv readable kind full
      exact ⟨iff_of_false (fun fulfils => disagrees fulfils.1.2) fun good => silent good.2,
        fun good => absurd good.2 silent⟩
  · exact judged_of_not_readable rfl readable fun good => good.1

omit inv

theorem countedLength_eq_iff :
    countedLength f = f.payload.length ↔ f.has flagPadded = false ∨ f.payload = [] := by
  rw [countedLength, length_stripPadding_eq_iff]
  simp [Frame.has]

theorem refills_iff : s.Refills f ↔ s.client.localWindow - f.payload.length < 32768 ∨
      ∃ w, s.client.windows f.streamId = some w ∧ w - f.payload.length < 32768 := by
  simp [System.Refills, windows]

include inv

theorem judged_receive_data (readable : s.Readable f)
    (kind : f.kind = .data) : s.Judged (.receive f) := by
  obtain ⟨agrees, kept⟩ := receive_data inv readable kind
  have outbox : (s.client.step (.receive f)).outbox = dataReply s.client f :=
    congrArg View.outbox (view_receive_data inv readable kind)
  have framed : s.Framed (.receive f) := by
    refine ⟨?_, fun g same => Option.some.inj same ▸ readable⟩
    rw [outbox]
    exact dataReply_fits readable.1
  have obeys : s.Obeys (.receive f) ↔ (s.peer.sends f).AllowsAll (dataReply s.client f) := by
    rw [System.Obeys, outbox]
    exact Iff.rfl
  have good : s.Good (.receive f) ↔ countedLength f = f.payload.length ∧
      (s.Refills f → 4 ≤ s.client.peerMaxFrameSize.toNat) := by
    simp [System.Good, readable, kind, countedLength_eq_iff]
  refine ⟨?_, fun isGood => kept (good.mp isGood).1⟩
  rw [System.Fulfils, agrees, obeys, allowsAll_dataReply inv kind readable.1, good,
    and_iff_left framed, and_comm, refills_iff]
  refine and_congr_right fun counted => ?_
  rw [counted, or_imp]
  refine and_congr_right fun _ => ?_
  exact ⟨fun all ⟨w, here, low⟩ => all w here low, fun all w here low => all ⟨w, here, low⟩⟩

theorem judged_receive : s.Judged (.receive f) := by
  by_cases readable : s.Readable f
  · by_cases kind : f.kind = .data
    · exact judged_receive_data inv readable kind
    refine judged_of_quiet inv rfl readable (quiet_receive inv readable kind) ?_
      ⟨readable, fun data => absurd data kind⟩
    intro g sent
    split_ifs at sent with settings
    · rw [mem_settingsReply sent]
      exact Nat.zero_le _
    -- An echo is as long as the frame that was read.
    rw [(s.peer.sends_settings settings).1, ← inv.maxFrameSize]
    unfold reply at sent
    split_ifs at sent
    · obtain rfl := mem_singleton.mp sent
      exact readable.2
    · cases sent
  · exact judged_of_not_readable rfl readable fun good => good.1

section

variable {event : Event} (call : event.frame = none)
  (view : (s.client.step event).view =
    (openedView s.client.view.fresh).writes (requestFrames s.client.nextStreamId hpack body))

include view

omit inv in
theorem outbox_request :
    (s.client.step event).outbox = requestFrames s.client.nextStreamId hpack body :=
  congrArg View.outbox view

include call

/-- The frames of a request keep the invariant if they can be put on the wire. -/
theorem inv_request (fits : ∀ g ∈ requestFrames s.client.nextStreamId hpack body, g.Fits) :
    Inv (s.step event).client.view (s.step event).peer := by
  have peer : (s.step event).peer =
      (requestFrames s.client.nextStreamId hpack body).foldl Peer.reads s.peer := by
    simp [System.step, outbox_request view, System.peerBefore, call]
  obtain ⟨maxFrameSize, initialWindow, connection, stream⟩ :=
    foldl_reads_requestFrames (p := s.peer) fits
  have client : (s.step event).client.view = _ := view
  rw [client, peer]
  refine ⟨inv.connection.trans connection.symm, ?_, inv.maxFrameSize.trans maxFrameSize.symm,
    inv.initialWindow.trans initialWindow.symm, inv.connectionRange, ?_, odd_add_two inv.odd, ?_⟩
  · intro i w found
    rw [stream]
    dsimp only [openedView, View.writes, View.fresh, Http2Connection.view] at found ⊢
    split_ifs at found ⊢
    · exact (Option.some.inj found).symm
    · exact inv.stream i w found
  · intro i w found
    dsimp only [openedView, View.writes] at found
    split_ifs at found
    · cases found
      exact ⟨by decide, by decide⟩
    · exact inv.streamRange i w found
  · exact (if_neg (odd_ne_zero inv.odd).symm).trans inv.noZero

theorem fulfils_request :
    s.Fulfils event ↔ (∀ g ∈ requestFrames s.client.nextStreamId hpack body, g.Fits) ∧
      s.peer.AllowsAll (requestFrames s.client.nextStreamId hpack body) := by
  have framed : s.Framed event ↔
      ∀ g ∈ requestFrames s.client.nextStreamId hpack body, g.Fits := by
    simp [System.Framed, outbox_request view, call]
  have obeys : s.Obeys event ↔
      s.peer.AllowsAll (requestFrames s.client.nextStreamId hpack body) := by
    rw [System.Obeys, outbox_request view, System.peerBefore, call]
    exact Iff.rfl
  rw [System.Fulfils, framed, obeys, and_comm]
  exact and_congr_right fun fits => and_iff_left (inv_request inv call view fits).agrees

end

theorem judged_sendRequest (method path authority scheme : String) (extraHeaders : List Header) :
    s.Judged (.sendRequest method path authority scheme extraHeaders body) := by
  cases connected : s.client.connected with
  | false =>
    -- Nothing is sent before the connection is set up.
    refine @judged_of_call s inv _ [] _ (fun _ _ here => here) rfl ?_ (by simp) ?_
    · have closed : s.client.step (.sendRequest method path authority scheme extraHeaders body) =
          { s.client with outbox := [] } := by
        simp [step, sendRequest, connected]
      rw [closed]
      rfl
    · simp [System.Good, connected]
  | true =>
    have view := @view_sendRequest { s.client with outbox := [] } method path
      authority scheme extraHeaders body connected
    have fulfils := @fulfils_request s inv _ body
      (.sendRequest method path authority scheme extraHeaders body) rfl view
    have good : s.Good (.sendRequest method path authority scheme extraHeaders body) ↔
        s.Fulfils (.sendRequest method path authority scheme extraHeaders body) := by
      have size : s.client.peerMaxFrameSize = s.peer.maxFrameSize := inv.maxFrameSize
      have window : s.client.peerInitialWindow = s.peer.initialWindow := inv.initialWindow
      rw [fulfils, requestFrames_iff, ← size, ← window]
      simp [System.Good, System.Sendable, connected]
    exact ⟨good.symm, fun isGood => inv_request inv rfl view (fulfils.mp (good.mp isGood)).1⟩

theorem judged : s.Judged event := by
  cases event with
  | connect => exact judged_connect inv
  | setup f => exact judged_setup inv
  | sendRequest => exact judged_sendRequest inv ..
  | receive f => exact judged_receive inv
  | finish id => exact judged_finish inv
  | shutdown => exact judged_shutdown inv

omit inv

end Steps

/-! ## Whole connections -/

/-- Along any sequence of events from the start, the client sends only what the peer allows, and all
local windows are those that the peer computes, exactly if every event is a good one. -/
theorem obeys_iff_good (events : List Event) : (∀ front event, front ++ [event] <+: events →
      ((System.start.run front).Obeys event ∧ (System.start.run (front ++ [event])).Agrees) ∧
        (System.start.run front).Framed event) ↔
      Run (Guarded System.Good fun s event next => s.step event = next) System.start events
        (System.start.run events) := by
  have runs := @Run.foldl_guarded_iff System Event System.start events
    (fun s => Inv s.client.view s.peer) System.Good System.step System.Fulfils
    (fun inv => (judged inv).1) (fun inv good => (judged inv).2 good) Inv.start
  simpa only [System.run, System.Fulfils, foldl_append, foldl_cons, foldl_nil]
    using runs

/-- The peer counts the padding of its data and the client does not. -/
theorem not_agrees_padded : ¬ ∀ events, (System.start.run events).Agrees := by
  intro all
  have agrees := all [.connect, .setup ⟨0x4, 0, 0, []⟩, .setup ⟨0x4, flagAck, 0, []⟩,
    .receive ⟨0x0, flagPadded, 1, [0]⟩]
  exact absurd agrees.1 (by decide +kernel)

end SmartOs.Net.Http2
