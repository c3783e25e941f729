/-
# What flow control sees of an HTTP/2 client

Flow control is about few fields of the client: the local windows, the settings of the peer, the
number of the next stream, and the frames that are written. For each function of the client a lemma
says what it does to them.
-/

import SmartOs.Net.Http2Peer

open SmartOs.Math List Option
open SmartOs.Net.Hpack (Header HpackDecoder)

namespace SmartOs.Net.Http2

/-- The part of the client that flow control is about. -/
structure View where
  localWindow : ℤ
  windows : UInt32 → Option ℤ
  maxFrameSize : UInt32
  initialWindow : UInt32
  nextStreamId : UInt32
  outbox : List Frame

def View.writes (v : View) (frames : List Frame) : View := { v with outbox := v.outbox ++ frames }

@[simp] theorem View.writes_nil (v : View) : v.writes [] = v := by
  rw [View.writes, append_nil]

/-- The windows with one of them changed. -/
def changeAt (windows : UInt32 → Option ℤ) (id : UInt32) (g : ℤ → ℤ) (i : UInt32) : Option ℤ :=
  if i = id then (windows id).map g else windows i

theorem changeAt_changeAt (windows : UInt32 → Option ℤ) (id : UInt32) (g h : ℤ → ℤ) :
    changeAt (changeAt windows id g) id h = changeAt windows id (h ∘ g) := by
  funext i
  by_cases at_id : i = id
  · simp [changeAt, at_id]
  · simp [changeAt, at_id]

variable {g : ℤ → ℤ}

theorem changeAt_congr {windows : UInt32 → Option ℤ} {id : UInt32} {h : ℤ → ℤ}
    (same : ∀ w, windows id = some w → g w = h w) :
    changeAt windows id g = changeAt windows id h := by
  funext i
  rw [changeAt, changeAt, map_congr same]

theorem changeAt_self {windows : UInt32 → Option ℤ} {id : UInt32}
    (same : ∀ w, windows id = some w → g w = w) : changeAt windows id g = windows := by
  funext i
  rw [changeAt, map_congr same]
  simp +contextual

/-- The view with the settings of the peer. -/
def View.withSettings (v : View) (p : Peer) : View :=
  { v with maxFrameSize := p.maxFrameSize, initialWindow := p.initialWindow }

namespace Http2Connection

def windows (c : Http2Connection) (id : UInt32) : Option ℤ := (c.streams id).map (·.localWindow)

def view (c : Http2Connection) : View :=
  ⟨c.localWindow, c.windows, c.peerMaxFrameSize, c.peerInitialWindow, c.nextStreamId, c.outbox⟩

@[simp] theorem view_sendFrame (c : Http2Connection) (ftype flags : UInt8) (id : UInt32)
    (payload : List UInt8) :
    (c.sendFrame ftype flags id payload).view = c.view.writes [⟨ftype, flags, id, payload⟩] :=
  rfl

theorem windows_putStream (c : Http2Connection) (id : UInt32) (stream : H2Stream) (i : UInt32) :
    (c.putStream id stream).windows i =
      if i = id then some stream.localWindow else c.windows i := by
  simp only [windows, putStream]
  split_ifs <;> rfl

theorem view_putStream (c : Http2Connection) (id : UInt32) (stream : H2Stream) :
    (c.putStream id stream).view = { c.view with
        windows := fun i => if i = id then some stream.localWindow else c.windows i } := by
  rw [← funext (c.windows_putStream id stream)]
  rfl

theorem view_putStream_self {c : Http2Connection} {id : UInt32} {stream stream' : H2Stream}
    (here : c.streams id = some stream) (same : stream'.localWindow = stream.localWindow) :
    (c.putStream id stream').view = c.view := by
  have windows : (c.putStream id stream').windows = c.windows := by
    funext i
    rw [windows_putStream]
    by_cases at_id : i = id
    · rw [if_pos at_id, at_id, windows, here, map_some, same]
    · rw [if_neg at_id]
  simp only [view, windows]
  rfl

section

variable (c : Http2Connection)
include c

section

variable (id : UInt32) {f : H2Stream → H2Stream}
  (changes : ∀ s, (f s).localWindow = g s.localWindow)

include id changes

theorem windows_modifyStream : (c.modifyStream id f).windows = changeAt c.windows id g := by
  funext i
  unfold modifyStream changeAt
  cases here : c.streams id with
  | none =>
    by_cases at_id : i = id
    · simp [at_id, windows, here]
    · simp [at_id]
  | some stream =>
    rw [windows_putStream, changes]
    simp [windows, here]

theorem view_modifyStream :
    (c.modifyStream id f).view = { c.view with windows := changeAt c.windows id g } := by
  rw [← windows_modifyStream c id changes]
  unfold modifyStream
  cases c.streams id <;> rfl

end

/-- A change that leaves the local window of the stream alone cannot be seen. -/
theorem view_modifyStream_same (id : UInt32) {f : H2Stream → H2Stream}
    (same : ∀ s, (f s).localWindow = s.localWindow) : (c.modifyStream id f).view = c.view := by
  rw [view_modifyStream c id (g := fun w => w) same, changeAt_self fun _ _ => rfl]
  rfl

@[simp] theorem view_endStream (id : UInt32) : (c.endStream id).view = c.view :=
  c.view_modifyStream_same id fun _ => rfl

@[simp] theorem view_handleWindowUpdate (f : Frame) : (c.handleWindowUpdate f).2.view = c.view := by
  unfold handleWindowUpdate
  split_ifs
  · rfl
  · rfl
  · exact c.view_modifyStream_same _ fun _ => rfl

@[simp] theorem view_takeHeaders (id : UInt32) (payload : List UInt8)
    (endHeaders : Bool) : (c.takeHeaders id payload endHeaders).2.view = c.view := by
  unfold takeHeaders
  split
  · rfl
  rename_i stream here
  dsimp only
  split_ifs
  · cases HpackDecoder.decode (stream.headerBuf ++ payload) c.hpackDecoder with
    | ok _ decoder | error _ decoder =>
      exact @view_putStream_self { c with hpackDecoder := decoder } id stream _ here rfl
  · exact view_putStream_self here rfl

end

section

variable {c : Http2Connection} {p : Peer} (maxFrameSize : c.peerMaxFrameSize = p.maxFrameSize)
  (initialWindow : c.peerInitialWindow = p.initialWindow)

include maxFrameSize initialWindow

theorem view_applySetting (setting : UInt16 × UInt32) :
    (c.applySetting setting).view = c.view.withSettings (p.applySetting setting) := by
  have others : settingsHeaderTableSize ≠ settingsInitialWindowSize ∧
      settingsHeaderTableSize ≠ settingsMaxFrameSize := by decide
  simp only [applySetting, Peer.applySetting, View.withSettings]
  by_cases table : setting.1 = settingsHeaderTableSize
  · rw [if_pos table, if_neg (table ▸ others.1), if_neg (table ▸ others.2), ← maxFrameSize,
      ← initialWindow]
    rfl
  rw [if_neg table]
  split_ifs
  · rw [← maxFrameSize]
    rfl
  · rw [← initialWindow]
    rfl
  · rw [← maxFrameSize, ← initialWindow]
    rfl

/-- Client and peer read the same settings off a frame. -/
theorem view_foldl_applySetting (settings : List (UInt16 × UInt32)) :
    (settings.foldl applySetting c).view =
      c.view.withSettings (settings.foldl Peer.applySetting p) := by
  induction settings generalizing c p with
  | nil =>
    rw [foldl_nil, foldl_nil, View.withSettings, ← maxFrameSize, ← initialWindow]
    rfl
  | cons setting settings ih =>
    have single := view_applySetting maxFrameSize initialWindow setting
    rw [foldl_cons, ih (congrArg View.maxFrameSize single) (congrArg View.initialWindow single),
      single]
    rfl

end

/-- What the client writes at once in reply to a frame other than data or settings. -/
def reply (f : Frame) : List Frame :=
  if f.kind = .ping ∧ f.has flagAck = false ∧ f.payload.length = 8 then
    [⟨0x6, flagAck, 0, f.payload⟩]
  else []

theorem view_processFrame (c : Http2Connection) {f : Frame} (notData : f.kind ≠ .data)
    (notSettings : f.kind ≠ .settings) : (c.processFrame f).2.view = c.view.writes (reply f) := by
  unfold processFrame reply
  cases kind : f.kind with
  | data => exact absurd kind notData
  | settings => exact absurd kind notSettings
  | headers =>
    have same := c.view_takeHeaders f.streamId (stripPadding f.payload f.flags)
      (f.has flagEndHeaders)
    simp only [reduceCtorEq, false_and, if_false, View.writes_nil]
    split
    · rename_i taken
      rw [taken] at same
      exact same
    rename_i taken
    rw [taken] at same
    split_ifs
    · rw [view_endStream]
      exact same
    · exact same
  | rstStream =>
    simp only [reduceCtorEq, false_and, if_false, View.writes_nil]
    split_ifs
    · exact c.view_modifyStream_same _ fun _ => rfl
    · exact c.view_modifyStream_same _ fun _ => rfl
    · rfl
  | ping =>
    by_cases echo : f.has flagAck = false ∧ f.payload.length = 8
    · simp [echo]
    have silent : (!f.has flagAck && decide (f.payload.length = 8)) = false := by
      simpa using echo
    simp [echo]
  | _ => simp

theorem view_connectFrame (c : Http2Connection) {f : Frame} (notSettings : f.kind ≠ .settings) :
    (c.connectFrame f).2.view = c.view := by
  have finished (c : Http2Connection) :
      (if c.gotSettings && c.gotAck then { c with connected := true } else c).view = c.view := by
    split_ifs <;> rfl
  unfold connectFrame
  split
  rename_i result c' handled
  have same : c'.view = c.view := by
    cases kind : f.kind <;> simp only [kind] at handled <;> first
      | exact absurd kind notSettings
      | exact (congrArg (fun o : Outcome Unit => o.2.view) handled.symm).trans (by simp)
  cases result with
  | error e => exact same
  | ok _ => exact (finished c').trans same

theorem view_finish (c : Http2Connection) (id : UInt32) :
    ∃ windows, (∀ i w, windows i = some w → c.windows i = some w) ∧
      (c.finish id).view = { c.view with windows } := by
  unfold finish
  cases c.streams id with
  | none => exact ⟨c.windows, fun _ _ found => found, rfl⟩
  | some stream =>
    dsimp only
    split_ifs
    · refine ⟨_, ?_, rfl⟩
      intro i w found
      simp only [windows] at found
      split_ifs at found
      · cases found
      · exact found
    · exact ⟨c.windows, fun _ _ found => found, rfl⟩

/-! ## Data -/

/-- A window after it has been brought up again if it is low. -/
def toppedUp (window : ℤ) : ℤ := if window < 32768 then 65535 else window

/-- The frame that tells the peer. -/
def windowUpdates (id : UInt32) (window : ℤ) : List Frame :=
  if window < 32768 then [⟨0x8, 0, id, be32 (UInt32.ofNat (65535 - window).toNat)⟩] else []

theorem wrap32_of_small {x : ℤ} (low : -2 ^ 31 ≤ x) (high : x < 2 ^ 31) : wrap32 x = x :=
  Int.bmod_eq_of_le (by omega) (by omega)

/-- No arithmetic on the window overflows. -/
def Moderate (window : ℤ) : Prop := -2 ^ 30 ≤ window ∧ window ≤ 65535

theorem refill_eq {window : ℤ} (moderate : Moderate window) :
    refill window = if window < 32768 then some (65535 - window) else none := by
  obtain ⟨low, high⟩ := moderate
  rw [refill, wrap32_of_small (by omega) (by omega)]

theorem view_sendWindowUpdate {c : Http2Connection} {window : ℤ} (moderate : Moderate window)
    (id : UInt32) (low : window < 32768) :
    (c.sendWindowUpdate id (65535 - window)).view = c.view.writes (windowUpdates id window) := by
  obtain ⟨bounded, -⟩ := moderate
  have small : (65535 - window) % 2 ^ 32 = 65535 - window := by omega
  rw [sendWindowUpdate, view_sendFrame, small, windowUpdates, if_pos low]

theorem view_refillConnection {c : Http2Connection} (moderate : Moderate c.localWindow) :
    c.refillConnection.view = { c.view with localWindow := toppedUp c.localWindow }.writes
        (windowUpdates 0 c.localWindow) := by
  rw [refillConnection, refill_eq moderate]
  by_cases low : c.localWindow < 32768
  · have full : wrap32 (c.localWindow + (65535 - c.localWindow)) = toppedUp c.localWindow := by
      rw [toppedUp, wrap32_of_small (by omega) (by omega)]
      omega
    simp only [if_pos low, full]
    exact view_sendWindowUpdate moderate 0 low
  · simp [toppedUp, windowUpdates, low]
    rfl

theorem view_refillStream {c : Http2Connection} {id : UInt32}
    (moderate : ∀ w, c.windows id = some w → Moderate w) : (c.refillStream id).view =
      { c.view with windows := changeAt c.windows id toppedUp }.writes
        ((c.windows id).elim [] (windowUpdates id)) := by
  unfold refillStream
  cases here : c.streams id with
  | none =>
    have none : c.windows id = none := by rw [windows, here]; rfl
    have same : ∀ w, c.windows id = some w → toppedUp w = w := by
      intro w found
      rw [none] at found
      cases found
    rw [changeAt_self same, none, elim_none, View.writes_nil]
    rfl
  | some stream =>
    have found : c.windows id = some stream.localWindow := by rw [windows, here]; rfl
    have bounded := moderate _ found
    dsimp only
    rw [refill_eq bounded, found, elim_some]
    by_cases low : stream.localWindow < 32768
    · have sent := @view_sendWindowUpdate c _ bounded id low
      have windows : (c.sendWindowUpdate id (65535 - stream.localWindow)).windows = c.windows :=
        congrArg View.windows sent
      have full : changeAt c.windows id (fun w => wrap32 (w + (65535 - stream.localWindow))) =
          changeAt c.windows id toppedUp := by
        refine changeAt_congr fun w here => ?_
        obtain rfl : stream.localWindow = w := some.inj (found.symm.trans here)
        rw [toppedUp, wrap32_of_small (by omega) (by omega)]
        omega
      rw [if_pos low]
      rw [view_modifyStream _ id (g := fun w => wrap32 (w + (65535 - stream.localWindow)))
        fun _ => rfl, windows, sent, full]
      rfl
    · have same : ∀ w, c.windows id = some w → toppedUp w = w := by
        intro w here
        obtain rfl : stream.localWindow = w := some.inj (found.symm.trans here)
        rw [toppedUp, if_neg low]
      rw [if_neg low, changeAt_self same, windowUpdates, if_neg low, View.writes_nil]
      rfl

theorem length_stripPadding_le (payload : List UInt8) (flags : UInt8) :
    (stripPadding payload flags).length ≤ payload.length := by
  unfold stripPadding
  split_ifs
  · exact le_rfl
  cases payload with
  | nil => exact le_rfl
  | cons padLen rest =>
    dsimp only
    split_ifs
    · exact Nat.zero_le _
    · rw [length_drop, length_take]
      omega

/-- Any padding is left out, and so is the byte that tells its length. -/
theorem length_stripPadding_eq_iff (payload : List UInt8) (flags : UInt8) :
    (stripPadding payload flags).length = payload.length ↔
      flags &&& flagPadded = 0 ∨ payload = [] := by
  unfold stripPadding
  split_ifs with unpadded
  · simp [unpadded]
  cases payload with
  | nil => simp
  | cons padLen rest =>
    refine iff_of_false ?_ (by simp [unpadded])
    dsimp only
    split_ifs
    · simp
    · rw [length_drop, length_take]
      omega

/-- The windows inside which the client keeps its own. -/
def InRange (window : ℤ) : Prop := 32768 ≤ window ∧ window ≤ 65535

theorem inRange_toppedUp {window : ℤ} (high : window ≤ 65535) : InRange (toppedUp window) := by
  unfold toppedUp InRange
  split_ifs <;> omega

theorem moderate_sub {window : ℤ} {n : ℕ} (range : InRange window) (short : n < 2 ^ 24) :
    Moderate (window - n) := by
  obtain ⟨low, high⟩ := range
  exact ⟨by omega, by omega⟩

theorem wrap32_sub {window : ℤ} {n : ℕ} (range : InRange window) (short : n < 2 ^ 24) :
    wrap32 (window - wrap32 n) = window - n := by
  obtain ⟨low, high⟩ := range
  rw [wrap32_of_small (x := n) (by omega) (by omega), wrap32_of_small (by omega) (by omega)]

variable {c : Http2Connection} {f : Frame} {n : ℕ}

section

variable (length : (stripPadding f.payload f.flags).length = n) (short : n < 2 ^ 24)
  (connection : InRange c.localWindow) (stream : ∀ w, c.windows f.streamId = some w → InRange w)

include length short connection stream

theorem view_takeData : (c.takeData f).view = { c.view with
        localWindow := c.localWindow - n
        windows := changeAt c.windows f.streamId fun w => w - n } := by
  have taken := c.view_modifyStream f.streamId (g := fun w => wrap32 (w - wrap32 n))
    (f := fun s => { s with
      responseBody := s.responseBody ++ stripPadding f.payload f.flags
      localWindow := wrap32 (s.localWindow - wrap32 n) }) fun _ => rfl
  rw [changeAt_congr fun w here => wrap32_sub (stream w here) short] at taken
  simp only [takeData, length]
  generalize c.modifyStream f.streamId _ = c₁ at taken ⊢
  have ended : (if f.has flagEndStream then c₁.endStream f.streamId else c₁).view =
      c₁.view := by
    split_ifs
    · exact view_endStream c₁ f.streamId
    · rfl
  generalize (if f.has flagEndStream then c₁.endStream f.streamId else c₁) = c₂ at ended ⊢
  rw [taken] at ended
  have lowered : { c₂ with localWindow := wrap32 (c₂.localWindow - wrap32 n) }.view =
      { c₂.view with localWindow := wrap32 (c₂.localWindow - wrap32 n) } := rfl
  have window : c₂.localWindow = c.localWindow := congrArg View.localWindow ended
  rw [lowered, ended, window, wrap32_sub connection short]

/-- Data lowers the window of the connection and of its stream, if that is open, by the length of
the data without padding, and windows that are low are brought up again. -/
theorem view_processData : (c.processData f).view = { c.view with
        localWindow := toppedUp (c.localWindow - n)
        windows := changeAt c.windows f.streamId fun w => toppedUp (w - n) }.writes
        (windowUpdates 0 (c.localWindow - n) ++
          (c.windows f.streamId).elim [] fun w => windowUpdates f.streamId (w - n)) := by
  have taken := view_takeData length short connection stream
  rw [processData]
  generalize c.takeData f = c₁ at taken ⊢
  have connectionWindow : c₁.localWindow = c.localWindow - n := congrArg View.localWindow taken
  have refilled := @view_refillConnection c₁ (connectionWindow ▸ moderate_sub connection short)
  rw [connectionWindow, taken] at refilled
  generalize c₁.refillConnection = c₂ at refilled ⊢
  have windows : c₂.windows = changeAt c.windows f.streamId fun w => w - n :=
    congrArg View.windows refilled
  have here : c₂.windows f.streamId = (c.windows f.streamId).map fun w => w - (n : ℤ) := by
    rw [windows, changeAt, if_pos rfl]
  have moderate : ∀ w, c₂.windows f.streamId = some w → Moderate w := by
    intro w found
    rw [here, map_eq_some_iff] at found
    obtain ⟨before, opened, rfl⟩ := found
    exact moderate_sub (stream before opened) short
  rw [view_refillStream moderate, refilled, here, windows, changeAt_changeAt, elim_map]
  simp only [View.writes, append_assoc]
  rfl

end

/-! ## Requests -/

/-- The frame that opens a stream. -/
def headersFrame (id : UInt32) (hpack : List UInt8) (hasBody : Bool) : Frame :=
  ⟨0x1, flagEndHeaders ||| if hasBody then 0 else flagEndStream, id, hpack⟩

/-- The frames of a request: the header block, and the body if it is not empty. -/
def requestFrames (id : UInt32) (hpack : List UInt8) (body : Option (List UInt8)) : List Frame :=
  headersFrame id hpack (body.any (· ≠ [])) ::
    (body.filter (· ≠ [])).toList.map fun data => ⟨0x0, flagEndStream, id, data⟩

/-- The view once a stream has been opened. -/
def openedView (v : View) : View :=
  { v with
    nextStreamId := v.nextStreamId + 2
    windows := fun i => if i = v.nextStreamId then some 65535 else v.windows i }

theorem view_openStream (c : Http2Connection) (hpack : List UInt8) (hasBody : Bool) :
    (c.openStream hpack hasBody).view =
      (openedView c.view).writes [headersFrame c.nextStreamId hpack hasBody] := by
  rw [openStream, view_putStream]
  rfl

theorem view_sendRequest {method path authority scheme : String} {extraHeaders : List Header}
    {body : Option (List UInt8)} (connected : c.connected) :
    (c.sendRequest method path authority scheme extraHeaders body).2.view =
      (openedView c.view).writes (requestFrames c.nextStreamId
        (requestHeaders method path authority scheme extraHeaders body) body) := by
  have opened := view_openStream c
    (requestHeaders method path authority scheme extraHeaders body) (body.any (· ≠ []))
  simp only [sendRequest, connected, Bool.not_true, Bool.false_eq_true, if_false]
  cases body with
  | none => exact opened
  | some data =>
    dsimp only
    by_cases empty : data = []
    · rw [if_neg (not_not.mpr empty), opened, empty]
      rfl
    · rw [if_pos empty, view_modifyStream_same, view_sendFrame, opened]
      · simp [View.writes, requestFrames, empty, Option.filter]
      · exact fun _ => rfl

end Http2Connection

end SmartOs.Net.Http2
