/-
# WebSocket framing is transparent

The encoding of a frame, masked or not, is decoded with whatever follows it, and no proper beginning
of it is taken for a frame. So the messages that `poll` queues depend on the frames only, and not on
how TCP has cut them.
-/

import SmartOs.Net.WebSocket

namespace SmartOs.Net.WebSocket

open CS Math Prod Session WsFrame
open List hiding Vector

variable {front : List UInt8} {s : Session}

/-! ## The first two bytes -/

theorem fromU8_header : ∀ v < 16, ∀ fin : Bool,
    Opcode.fromU8 ((if fin then 0x80 else 0x00) ||| (Opcode.fromU8 (UInt8.ofNat v)).toU8) =
      Opcode.fromU8 (UInt8.ofNat v) ∧
    (((if fin then 0x80 else 0x00) ||| (Opcode.fromU8 (UInt8.ofNat v)).toU8) &&& 0x80 != 0) =
      fin := by
  decide +kernel

theorem mask_header : ∀ v < 128, ∀ mask : Bool,
    (((if mask then 0x80 else 0x00) ||| UInt8.ofNat v) &&& 0x7F).toNat = v ∧
    (((if mask then 0x80 else 0x00) ||| UInt8.ofNat v) &&& 0x80 != 0) = mask := by
  decide +kernel

variable (key : Vector UInt8 4) (mask : Bool)

/-! ## Masks -/

@[simp] theorem length_applyMask (bytes : List UInt8) : (applyMask key bytes).length =
    bytes.length := by
  simp [applyMask]

theorem applyMask_applyMask (bytes : List UInt8) : applyMask key (applyMask key bytes) = bytes := by
  refine ext_getElem (by simp) fun i _ _ => ?_
  simp only [applyMask, mapIdx_mapIdx, getElem_mapIdx, Function.comp_apply, UInt8.xor_assoc,
    UInt8.xor_self, UInt8.xor_zero]

variable {frame : WsFrame}

namespace WsFrame

/-! ## Lengths -/

/-- The seven bits of the second byte and the bytes after it, for a payload of `len` bytes. -/
inductive LengthForm (len : ℕ) : ℕ → List UInt8 → Prop
  | short (small : len < 126) : LengthForm len len []
  | medium (fits : len < 65536) : LengthForm len 126 (beBytesOn 2 len)
  | long (fits : len < 2 ^ 64) : LengthForm len 127 (beBytesOn 8 len)

theorem LengthForm.lt {len v : ℕ} {tail : List UInt8} (form : LengthForm len v tail) : v < 128 := by
  cases form <;> omega

theorem lengthBytes_eq (maskBit : UInt8) {len : ℕ} (fits : len < 2 ^ 64) :
    ∃ v tail, LengthForm len v tail ∧
      lengthBytes maskBit len = (maskBit ||| UInt8.ofNat v) :: tail := by
  unfold lengthBytes
  split
  · rename_i small
    exact ⟨len, [], .short small, rfl⟩
  split
  · rename_i small
    refine ⟨126, _, .medium small, ?_⟩
    simp [beBytesOn, toLeBytes, Nat.shiftRight_eq_div_pow]
  · refine ⟨127, _, .long fits, ?_⟩
    simp [beBytesOn, toLeBytes, Nat.shiftRight_eq_div_pow, Nat.div_div_eq_div_mul, range_succ]

variable {part : List UInt8}

section Length

variable {len v : ℕ} {tail : List UInt8} (form : LengthForm len v tail) (b0 b1 : UInt8)

include form

theorem LengthForm.decodeLength_append (rest : List UInt8) :
    decodeLength (b0 :: b1 :: (tail ++ rest)) v = some (len, 2 + tail.length) := by
  unfold decodeLength
  cases form with
  | short small => rw [if_neg (by omega), if_neg (by omega)]; rfl
  | medium fits =>
    rw [if_pos rfl, if_neg (by simp), drop_succ_cons, drop_succ_cons, drop_zero,
      take_left' (length_beBytesOn 2 _), ofBeBytes_beBytesOn fits, length_beBytesOn]
  | long fits =>
    rw [if_neg (by decide), if_pos rfl, if_neg (by simp), drop_succ_cons, drop_succ_cons,
      drop_zero, take_left' (length_beBytesOn 8 _), ofBeBytes_beBytesOn fits,
      length_beBytesOn]

theorem LengthForm.decodeLength_short (less : part.length < tail.length) :
    decodeLength (b0 :: b1 :: part) v = none := by
  unfold decodeLength
  cases form with
  | short small => cases less
  | medium fits =>
    rw [length_beBytesOn] at less
    rw [if_pos rfl, if_pos (by simp; omega)]
  | long fits =>
    rw [length_beBytesOn] at less
    rw [if_neg (by decide), if_pos rfl, if_pos (by simp; omega)]

end Length

/-! ## Frames -/

/-- A frame that can be encoded: an opcode of four bits and a length of 63. -/
def Encodable (frame : WsFrame) : Prop :=
  frame.opcode.FourBit ∧ frame.payload.length ≤ 2 ^ 63 - 1

/-- The key before a masked payload. -/
def keyPart (frame : WsFrame) (mask : Bool) : List UInt8 :=
  if mask then (maskKey (UInt32.ofNat frame.payload.length)).toList else []

/-- The payload as it is sent. -/
def payloadPart (frame : WsFrame) (mask : Bool) : List UInt8 :=
  if mask then applyMask (maskKey (UInt32.ofNat frame.payload.length)) frame.payload
  else frame.payload

@[simp] theorem length_payloadPart : (frame.payloadPart mask).length = frame.payload.length := by
  cases mask <;> simp [payloadPart]

/-- What an encoding consists of, and what its first two bytes say. -/
theorem encode_eq (encodable : frame.Encodable) (mask : Bool) :
    ∃ b0 b1 v tail, LengthForm frame.payload.length v tail ∧
      frame.encode mask = b0 :: b1 :: (tail ++ (frame.keyPart mask ++ frame.payloadPart mask)) ∧
      (b0 &&& 0x80 != 0) = frame.fin ∧ Opcode.fromU8 b0 = frame.opcode ∧
      (b1 &&& 0x80 != 0) = mask ∧ (b1 &&& 0x7F).toNat = v := by
  obtain ⟨⟨n, small, opcode⟩, length⟩ := encodable
  obtain ⟨v, tail, form, second⟩ := lengthBytes_eq (if mask then 0x80 else 0x00)
    (show frame.payload.length < 2 ^ 64 by omega)
  have first := fromU8_header n.toNat small frame.fin
  rw [UInt8.ofNat_toNat, ← opcode] at first
  have masked := mask_header v form.lt mask
  refine ⟨_, _, v, tail, form, ?_, first.2, first.1, masked.2, masked.1⟩
  rw [encode, second]
  cases mask <;> simp [keyPart, payloadPart]

theorem decodeMaskKey_key (front rest : List UInt8) : decodeMaskKey (front ++ (key.toList ++ rest))
    true front.length = some (some key, front.length + 4) := by
  have byte : ∀ i, (front ++ (key.toList ++ rest)).getD (front.length + i) 0 =
      (key.toList ++ rest).getD i 0 := by
    intro i
    simp only [getD_eq_getElem?_getD]
    rw [getElem?_append_right (by omega), Nat.add_sub_cancel_left]
  have first := byte 0
  rw [add_zero] at first
  rw [decodeMaskKey, if_pos rfl, if_neg (by simp)]
  simp only [first, byte]
  simp only [Ipv4Addr.toList_eq key, cons_append, getD_cons_zero, getD_cons_succ, Ipv4Addr.mk_eq]

theorem decodeMaskKey_of_keyPart (front rest : List UInt8) : decodeMaskKey (front ++ (frame.keyPart
    mask ++ rest)) mask front.length = some (if mask then some (maskKey (UInt32.ofNat
    frame.payload.length)) else none, front.length + (frame.keyPart mask).length) := by
  cases mask with
  | false => rfl
  | true => exact (decodeMaskKey_key ..).trans (by simp [keyPart])

theorem decodeMaskKey_short (less : part.length < (frame.keyPart mask).length) : decodeMaskKey
    (front ++ part) mask front.length = none := by
  cases mask with
  | false => cases less
  | true =>
    simp only [keyPart, if_true, Vector.length_toList] at less
    rw [decodeMaskKey, if_pos rfl, if_pos (by rw [length_append]; omega)]

theorem decodePayload_eq (short : frame.payload.length ≤ 2 ^ 63 - 1) (front rest : List UInt8)
    (header : front.length ≤ 14) : decodePayload (front ++ (frame.payloadPart mask ++ rest))
    frame.fin frame.opcode (if mask then some (maskKey (UInt32.ofNat frame.payload.length)) else
    none) front.length frame.payload.length = some (some (frame, front.length +
    frame.payload.length)) := by
  have stop : (front.length + frame.payload.length) % 2 ^ 64 =
      front.length + frame.payload.length := Nat.mod_eq_of_lt (by omega)
  have raw : ((front ++ (frame.payloadPart mask ++ rest)).take
      (front.length + frame.payload.length)).drop front.length = frame.payloadPart mask := by
    rw [← append_assoc, take_left' (by simp), drop_left]
  unfold decodePayload
  simp only [stop, raw]
  cases mask <;> simp [payloadPart, applyMask_applyMask]

theorem decodePayload_short (fin : Bool) (opcode : Opcode) (key : Option (Vector UInt8 4))
    {len : ℕ} (short : len ≤ 2 ^ 63 - 1) (header : front.length ≤ 14) (less : part.length < len) :
    decodePayload (front ++ part) fin opcode key front.length len = some none := by
  unfold decodePayload
  rw [if_pos (by rw [length_append]; omega)]

theorem decode_cons_cons (b0 b1 : UInt8) (data : List UInt8) : decode (b0 :: b1 :: data) =
      match decodeLength (b0 :: b1 :: data) (b1 &&& 0x7F).toNat with
      | none => some none
      | some (payloadLen, pos) =>
        match decodeMaskKey (b0 :: b1 :: data) (b1 &&& 0x80 != 0) pos with
        | none => some none
        | some (maskKey, pos) => decodePayload (b0 :: b1 :: data) (b0 &&& 0x80 != 0)
            (Opcode.fromU8 b0) maskKey pos payloadLen := by
  rfl

/-- The encoding of a frame is decoded to the frame, with whatever follows and not before it is all
there. -/
theorem code_encode (encodable : frame.Encodable) (mask : Bool) :
    decoder.Code frame (frame.encode mask) := by
  obtain ⟨b0, b1, v, tail, form, layout, fin, opcode, masked, rawLen⟩ := encode_eq encodable mask
  have short := encodable.2
  have tailLength : tail.length ≤ 8 := by
    cases form <;> simp
  have keyLength : (frame.keyPart mask).length ≤ 4 := by
    cases mask <;> simp [keyPart]
  have header : 2 + tail.length = (b0 :: b1 :: tail).length := by
    rw [length_cons, length_cons]
    omega
  constructor
  · intro rest
    have front : b0 :: b1 :: (tail ++ (frame.keyPart mask ++ (frame.payloadPart mask ++ rest))) =
        (b0 :: b1 :: tail) ++ (frame.keyPart mask ++ (frame.payloadPart mask ++ rest)) := rfl
    change decode _ = _
    rw [layout, cons_append, cons_append, append_assoc, append_assoc,
      decode_cons_cons, rawLen, form.decodeLength_append, masked, fin, opcode]
    dsimp only
    rw [front, header, decodeMaskKey_of_keyPart]
    dsimp only
    rw [← append_assoc (b0 :: b1 :: tail), ← length_append,
      decodePayload_eq mask short _ _ (by simp; omega)]
    simp
    omega
  · intro p isPrefix proper
    rw [layout] at isPrefix proper
    change decode p = _
    obtain _ | ⟨x, _ | ⟨y, q⟩⟩ := p
    · rfl
    · rfl
    rw [cons_prefix_cons, cons_prefix_cons] at isPrefix
    obtain ⟨rfl, rfl, within⟩ := isPrefix
    rw [decode_cons_cons, rawLen, masked]
    -- the bytes of the length, then the key, then the payload can be incomplete
    by_cases less : q.length < tail.length
    · rw [form.decodeLength_short _ _ less]
    obtain ⟨q, rfl⟩ := prefix_of_prefix_length_le (prefix_append ..) within
      (not_lt.mp less)
    rw [prefix_append_right_inj] at within
    have front : x :: y :: (tail ++ q) = (x :: y :: tail) ++ q := rfl
    rw [form.decodeLength_append]
    dsimp only
    rw [front, header]
    by_cases less : q.length < (frame.keyPart mask).length
    · rw [decodeMaskKey_short mask less]
    obtain ⟨q, rfl⟩ := prefix_of_prefix_length_le (prefix_append ..) within
      (not_lt.mp less)
    rw [prefix_append_right_inj] at within
    rw [decodeMaskKey_of_keyPart]
    rw [← append_assoc, ← length_append]
    refine decodePayload_short _ _ _ short (by simp; omega) ?_
    by_contra whole
    refine proper ?_
    rw [within.eq_of_length_le (by rw [length_payloadPart]; omega)]

end WsFrame

/-! ## Polling -/

theorem recvBuf_eq_nil_of_recv_error {tcb : Tcp.Tcb} {len : ℕ} {message : String}
    (failed : tcb.recv len = .error message) : tcb.recvBuf = [] := by
  unfold Tcp.Tcb.recv at failed
  split at failed
  · assumption
  · cases failed

theorem recvBuf_eq_nil_of_recv_nil {tcb last : Tcp.Tcb}
    (received : tcb.recv 4096 = .ok ([], last)) : tcb.recvBuf = [] ∧ last = tcb := by
  unfold Tcp.Tcb.recv at received
  split at received
  · rename_i empty
    split at received
    · cases received
    · cases received
      exact ⟨empty, rfl⟩
  · rename_i some
    have none := congrArg (·.map fst) received
    simp only [Except.map] at none
    exact absurd none (by simp [some])

theorem recvAll_eq (tcb : Tcp.Tcb) (recvBuf : List UInt8) :
    (recvAll tcb recvBuf).1 = recvBuf ++ tcb.recvBuf := by
  fun_induction recvAll tcb recvBuf with
  | case1 tcb recvBuf message failed =>
    rw [recvBuf_eq_nil_of_recv_error failed, append_nil]
  | case2 tcb recvBuf last received =>
    rw [(recvBuf_eq_nil_of_recv_nil received).1, append_nil]
  | case3 tcb recvBuf bytes last received some ih =>
    obtain ⟨rest, whole, rfl⟩ := Tcp.Tcb.recv_ok received
    rw [ih, whole, append_assoc]

section Client

variable (fromUtf8Lossy : List UInt8 → String)

/-- The client after polls that found the blocks of its connection in these states. -/
def polls (ws : Client) (tcbs : List Tcp.Tcb) : Option Client :=
  tcbs.foldlM (fun ws tcb => (poll fromUtf8Lossy ws tcb).map fst) ws

def Session.isClosed (s : Session) : Bool := s.state = .closed

theorem poll_eq (ws : Client) (tcb : Tcp.Tcb) : (poll fromUtf8Lossy ws tcb).map fst =
      (decoder.feed (handleFrame fromUtf8Lossy) isClosed
        (ws.session, ws.recvBuf) tcb.recvBuf).map fun fed => ⟨fed.1, fed.2⟩ := by
  unfold poll Decoder.feed isClosed
  by_cases closed : ws.session.state = .closed
  · simp [closed]
  simp only [closed, recvAll_eq]
  cases decoder.drain (handleFrame fromUtf8Lossy) ws.session
    (ws.recvBuf ++ tcb.recvBuf) <;> rfl

theorem polls_eq (ws : Client) (tcbs : List Tcp.Tcb) : polls fromUtf8Lossy ws tcbs =
      ((tcbs.map Tcp.Tcb.recvBuf).foldlM (decoder.feed (handleFrame fromUtf8Lossy) isClosed)
        (ws.session, ws.recvBuf)).map fun fed => ⟨fed.1, fed.2⟩ := by
  induction tcbs generalizing ws with
  | nil => rfl
  | cons tcb tcbs ih =>
    rw [polls, foldlM_cons, poll_eq, map_cons, foldlM_cons]
    cases fed : decoder.feed (handleFrame fromUtf8Lossy) isClosed
      (ws.session, ws.recvBuf) tcb.recvBuf with
    | none => rfl
    | some next => exact ih ⟨next.1, next.2⟩

theorem Session.handleFrame_open (isOpen : s.state ≠ .closed)
    (other : frame.opcode ≠ .close) : (s.handleFrame fromUtf8Lossy frame).state ≠ .closed := by
  unfold handleFrame
  cases kind : frame.opcode with
  | close => exact absurd kind other
  | ping =>
    simp only [sendMsg]
    split <;> exact isOpen
  | pong | reserved => exact isOpen
  | text | binary | continuation =>
    dsimp only
    split <;> exact isOpen

theorem Session.foldl_handleFrame_open (isOpen : s.state ≠ .closed)
    {frames : List WsFrame} (others : ∀ frame ∈ frames, frame.opcode ≠ .close) :
    (frames.foldl (handleFrame fromUtf8Lossy) s).state ≠ .closed := by
  induction frames generalizing s with
  | nil => exact isOpen
  | cons frame frames ih =>
    rw [forall_mem_cons] at others
    exact ih (handleFrame_open fromUtf8Lossy isOpen others.1) others.2

/-- Frames that are encoded, masked or not, and come to an open client in any chunks are handled
one after the other, and nothing is left in the buffer. In particular the messages queued are those
of the frames. Each encoding is decoded with whatever follows it, and only when it is complete. -/
theorem polls_encode (session : Session) (isOpen : session.state ≠ .closed)
    (frames : List (WsFrame × Bool)) (encodable : ∀ frame ∈ frames, frame.1.Encodable)
    (closeLast : ∀ frame ∈ frames.dropLast, frame.1.opcode ≠ .close) (tcbs : List Tcp.Tcb)
    (cut : (tcbs.map Tcp.Tcb.recvBuf).flatten =
      (frames.map fun frame => frame.1.encode frame.2).flatten) :
    polls fromUtf8Lossy ⟨session, []⟩ tcbs =
        some ⟨(frames.map fst).foldl (handleFrame fromUtf8Lossy) session, []⟩ ∧
      ∀ frame : WsFrame, frame.Encodable → ∀ mask, (∀ rest, decode (frame.encode mask ++ rest) =
          some (some (frame, (frame.encode mask).length))) ∧
        ∀ part, part <+: frame.encode mask → part ≠ frame.encode mask →
          decode part = some none := by
  constructor
  · have codes : List.Forall₂ decoder.Code (frames.map fst)
        (frames.map fun frame => frame.1.encode frame.2) := by
      rw [forall₂_map_left_iff, forall₂_map_right_iff, forall₂_same]
      exact fun frame mem => code_encode (encodable frame mem) frame.2
    have busy : ∀ front, front <+: frames.map fst → front ≠ frames.map fst →
        isClosed (front.foldl (handleFrame fromUtf8Lossy) session) = false := by
      intro front isPrefix proper
      have shorter : front.length < (frames.map fst).length := by
        by_contra all
        exact proper (isPrefix.eq_of_length_le (not_lt.mp all))
      have init := dropLast_prefix (frames.map fst)
      have within : front <+: (frames.map fst).dropLast :=
        prefix_of_prefix_length_le isPrefix init (by rw [length_dropLast]; omega)
      refine decide_eq_false (foldl_handleFrame_open fromUtf8Lossy isOpen ?_)
      intro frame mem
      have before := within.subset mem
      rw [← map_dropLast] at before
      obtain ⟨pair, among, rfl⟩ := mem_map.mp before
      exact closeLast pair among
    rw [polls_eq, Decoder.foldlM_feed codes _ cut (Decoder.pending_nil codes) busy]
    rfl
  · intro frame valid mask
    have code := code_encode valid mask
    exact ⟨code.whole, fun part => code.incomplete⟩

end Client

/-- A client right after the handshake. -/
def Session.fresh : Session where
  state := .opened
  fragBuf := []
  fragOpcode := .continuation
  messages := []
  sendSeq := 0
  sent := []

/-- A message in two fragments, the second one masked, that comes in two pieces. -/
theorem polls_encode_fragments :
    polls (fun _ => "") ⟨.fresh, []⟩
        [{ Tcp.Tcb.new 49200 #v[10, 0, 2, 2] 80 with recvBuf := [0x02] },
          { Tcp.Tcb.new 49200 #v[10, 0, 2, 2] 80 with
            recvBuf := [0x01, 7, 0x80, 0x80, 60, 110, 243, 95] }] =
      some ⟨{ fresh with fragOpcode := .binary, messages := [.binary [7]] }, []⟩ :=
  (polls_encode (fun _ => "") .fresh (by decide)
    [(⟨false, .binary, [7]⟩, false), (⟨true, .continuation, []⟩, true)]
    (forall_mem_cons.mpr ⟨⟨⟨2, by decide, by decide⟩, by decide⟩,
      forall_mem_cons.mpr ⟨⟨⟨0, by decide, by decide⟩, by decide⟩, by simp⟩⟩)
    (by decide) _ (by decide)).1

/-! ## Messages in fragments -/

theorem fragments_cons (opcode : Opcode) (piece : List UInt8) (pieces : List (List UInt8)) :
    fragments opcode (piece :: pieces) =
      ⟨pieces.isEmpty, opcode, piece⟩ :: fragments .continuation pieces := by
  rw [fragments, mapIdx_cons, fragments]
  congr 1
  · cases pieces <;> rfl
  · rw [mapIdx_eq_mapIdx_iff]
    intro i inside
    simp only [length_cons, Nat.add_sub_cancel, ite_self, Nat.succ_ne_zero, if_false]
    congr 1
    rw [Bool.eq_iff_iff, beq_iff_eq, beq_iff_eq]
    omega

section Fragments

variable (fromUtf8Lossy : List UInt8 → String) {opcode : Opcode} {pieces : List (List UInt8)}

/-- The frames behind the first one complete the message. -/
theorem foldl_continuations (some : pieces ≠ []) :
    ((fragments .continuation pieces).foldl (handleFrame fromUtf8Lossy) s).messages =
      s.messages ++ [dataMessage fromUtf8Lossy s.fragOpcode (s.fragBuf ++ pieces.flatten)] := by
  induction pieces generalizing s with
  | nil => exact absurd rfl some
  | cons piece pieces ih =>
    rw [fragments_cons, foldl_cons]
    cases pieces with
    | nil => simp [handleFrame, fragments, push]
    | cons next pieces =>
      rw [ih (by simp)]
      simp [handleFrame]

theorem foldl_fragments (kind : opcode = .text ∨ opcode = .binary) (some : pieces ≠ []) :
    ((fragments opcode pieces).foldl (handleFrame fromUtf8Lossy) s).messages =
      s.messages ++ [dataMessage fromUtf8Lossy opcode pieces.flatten] := by
  obtain ⟨piece, pieces, rfl⟩ := exists_cons_of_ne_nil some
  rw [fragments_cons, foldl_cons]
  cases pieces with
  | nil => rcases kind with rfl | rfl <;> simp [handleFrame, fragments, push]
  | cons next pieces =>
    rw [foldl_continuations fromUtf8Lossy (by simp)]
    rcases kind with rfl | rfl <;> simp [handleFrame]

theorem encodable_fragments (kind : opcode = .text ∨ opcode = .binary)
    (fits : pieces.flatten.length ≤ 2 ^ 63 - 1) (mem : frame ∈ fragments opcode pieces) :
    frame.Encodable ∧ frame.opcode ≠ .close := by
  obtain ⟨i, inside, rfl⟩ := mem_mapIdx.mp mem
  have short := (sublist_flatten_of_mem (getElem_mem inside)).length_le
  refine ⟨⟨?_, short.trans fits⟩, ?_⟩
  all_goals dsimp only; split_ifs
  · rcases kind with rfl | rfl
    · exact ⟨1, by decide, rfl⟩
    · exact ⟨2, by decide, rfl⟩
  · exact ⟨0, by decide, rfl⟩
  · rcases kind with rfl | rfl <;> nofun
  · nofun

/-- What `send_fragmented` hands over is a message of the other side, whatever the size of the
fragments and however TCP cuts them. -/
theorem polls_sendFragmented {sender sent receiver : Session} {opcode : Opcode}
    {data : List UInt8} {chunkSize : ℕ} {tcbs : List Tcp.Tcb}
    (opened : data = [] → sender.state = .opened) (isOpen : receiver.state ≠ .closed)
    (kind : opcode = .text ∨ opcode = .binary) (fits : data.length ≤ 2 ^ 63 - 1)
    (done : sender.sendFragmented opcode data chunkSize = some sent)
    (cut : sender.sent.flatten ++ (tcbs.map Tcp.Tcb.recvBuf).flatten = sent.sent.flatten) :
    ∃ session, polls fromUtf8Lossy ⟨receiver, []⟩ tcbs = some ⟨session, []⟩ ∧
      session.messages = receiver.messages ++ [dataMessage fromUtf8Lossy opcode data] := by
  -- an empty message is a single fragment
  obtain ⟨pieces, nonempty, rfl, bytes⟩ : ∃ pieces, pieces ≠ [] ∧ pieces.flatten = data ∧
      sent.sent = sender.sent ++ (fragments opcode pieces).map (·.encode true) := by
    rw [sendFragmented] at done
    split_ifs at done with empty zero <;> cases done
    · exact ⟨[[]], by simp, empty.symm, by simp [sendMsg, opened empty, fragments, empty]⟩
    · have whole := flatten_chunks (Nat.pos_of_ne_zero zero) data
      exact ⟨_, fun none => empty (by rw [← whole, none, flatten_nil]), whole, rfl⟩
  rw [bytes, flatten_append, append_right_inj] at cut
  have codes : Forall₂ decoder.Code (fragments opcode pieces)
      ((fragments opcode pieces).map (·.encode true)) := by
    rw [forall₂_map_right_iff, forall₂_same]
    exact fun frame mem => code_encode (encodable_fragments kind fits mem).1 true
  refine ⟨_, ?_, foldl_fragments fromUtf8Lossy kind nonempty⟩
  rw [polls_eq, Decoder.foldlM_feed codes _ cut (Decoder.pending_nil codes)]
  · rfl
  · intro front isPrefix _
    exact decide_eq_false (foldl_handleFrame_open fromUtf8Lossy isOpen fun frame mem =>
      (encodable_fragments kind fits (isPrefix.subset mem)).2)

/-- A text of three bytes in fragments of two, which comes in one piece. -/
theorem polls_sendFragmented_two : ∃ session, polls (fun _ => "abc") ⟨fresh, []⟩
    [{ Tcp.Tcb.new 49200 #v[10, 0, 2, 2] 80 with
      recvBuf := encode ⟨false, .text, [1, 2]⟩ true ++ encode ⟨true, .continuation, [3]⟩ true }] =
        some ⟨session, []⟩ ∧ session.messages = [.text "abc"] :=
  polls_sendFragmented (fun _ => "abc") (fun _ => rfl) (by decide) (.inl rfl) (by decide)
    (show fresh.sendFragmented .text [1, 2, 3] 2 = some _ from rfl) (by decide)

end Fragments

end SmartOs.Net.WebSocket
