import DnaPow.Net.Message

/-!
# Reassembling messages from a connection

`unpackNodeBuf` is called with each chunk that arrives and starts
`HandleNodeMsg` on every message it completes. The receive buffer holds the
beginning of a message; its counter is zero while the header is incomplete and
the number of missing payload bytes afterwards.

The invariant `Awaits` says that the receive buffer followed by what is still to
come is a sequence of messages. `unpackNodeBuf_awaits` is its step lemma for a
chunk of any length.
-/

namespace DnaPow.Net

open DnaPow.Std Common

/-- `rxBuf`. -/
structure RxBuf where
  p : Bytes
  len : Nat
  deriving DecidableEq, Repr

/-- A connection, with the buffers that were given to `HandleNodeMsg`. -/
structure Link where
  rxBuf : RxBuf
  handled : List Bytes
  deriving DecidableEq, Repr

namespace Link

def fresh : Link := ⟨⟨[], 0⟩, []⟩

/-- `go HandleNodeMsg`, and the receive buffer is reset. -/
def handleNodeMsg (link : Link) (msgBuf : Bytes) : Link := ⟨⟨[], 0⟩, link.handled ++ [msgBuf]⟩

end Link

/-- The first half of `unpackNodeBuf`: complete the header if it is incomplete.
The result has the bytes that are left for the payload, if the call goes on.
A receive buffer longer than a header with no payload missing makes a slice
bound negative. -/
def receiveHeader (magic : UInt32) (link : Link) (buf : Bytes) : Option (Link × Option Bytes) :=
  let p := link.rxBuf.p
  if link.rxBuf.len ≠ 0 then some (link, some buf)
  else if msgHdrLen < p.length then none
  else if buf.length < msgHdrLen - p.length then
    some ({ link with rxBuf := ⟨p ++ buf, 0⟩ }, none)
  else do
    let header := p ++ buf.take (msgHdrLen - p.length)
    let valid ← validMsgHdr magic header
    if valid then
      let length ← payloadLen header
      return ({ link with rxBuf := ⟨header, length⟩ }, some (buf.drop (msgHdrLen - p.length)))
    else return ({ link with rxBuf := ⟨[], 0⟩ }, none)

/-- The second half of `unpackNodeBuf`: complete the payload. The result has the
bytes of the messages after this one. -/
def receivePayload (link : Link) (buf : Bytes) : Link × Option Bytes :=
  let p := link.rxBuf.p
  let msgLen := link.rxBuf.len
  if buf.length = msgLen then (link.handleNodeMsg (p ++ buf), none)
  else if buf.length < msgLen then
    ({ link with rxBuf := ⟨p ++ buf, msgLen - buf.length⟩ }, none)
  else (link.handleNodeMsg (p ++ buf.take msgLen), some (buf.drop msgLen))

/-- What bounds the number of calls: the unread bytes, and a header that may
still be waiting for an empty payload. -/
def Link.unreadMeasure (link : Link) (buf : Bytes) : Nat :=
  2 * buf.length + min 1 link.rxBuf.p.length

/-- The header takes no bytes when it is already complete, and what is missing
of it otherwise. -/
theorem receiveHeader_payload {magic : UInt32} {link headed : Link} {buf payload : Bytes}
    (header : receiveHeader magic link buf = some (headed, some payload)) :
    (link.rxBuf.len ≠ 0 ∧ headed = link ∧ payload = buf) ∨
      (link.rxBuf.p.length ≤ msgHdrLen ∧ msgHdrLen - link.rxBuf.p.length ≤ buf.length ∧
        payload = buf.drop (msgHdrLen - link.rxBuf.p.length)) := by
  simp only [receiveHeader] at header
  split_ifs at header with missing long short
  · simp only [Option.some.injEq, Prod.mk.injEq] at header
    exact .inl ⟨missing, header.1.symm, header.2.symm⟩
  · simp at header
  · right
    simp only [Option.bind_eq_bind, Option.bind_eq_some_iff] at header
    obtain ⟨valid, _, header⟩ := header
    split_ifs at header
    · simp only [Option.bind_eq_some_iff, Option.pure_def, Option.some.injEq, Prod.mk.injEq]
        at header
      obtain ⟨_, _, _, rfl⟩ := header
      exact ⟨by omega, by omega, rfl⟩
    · simp at header

/-- What the payload leaves over is shorter by the payload. -/
theorem receivePayload_rest {link paid : Link} {buf rest : Bytes}
    (pay : receivePayload link buf = (paid, some rest)) :
    paid.rxBuf = ⟨[], 0⟩ ∧ rest = buf.drop link.rxBuf.len ∧ link.rxBuf.len < buf.length := by
  simp only [receivePayload] at pay
  split_ifs at pay with exact less
  · simp at pay
  · simp at pay
  · simp only [Prod.mk.injEq, Option.some.injEq] at pay
    obtain ⟨rfl, rfl⟩ := pay
    exact ⟨rfl, rfl, by omega⟩

theorem unreadMeasure_lt {magic : UInt32} {link headed paid : Link} {buf payload rest : Bytes}
    (header : receiveHeader magic link buf = some (headed, some payload))
    (pay : receivePayload headed payload = (paid, some rest)) :
    paid.unreadMeasure rest < link.unreadMeasure buf := by
  obtain ⟨reset, rfl, _⟩ := receivePayload_rest pay
  simp only [Link.unreadMeasure, reset, List.length_drop, List.length_nil]
  rcases receiveHeader_payload header with ⟨missing, rfl, rfl⟩ | ⟨_, _, rfl⟩
  · omega
  · simp only [List.length_drop, msgHdrLen] at *
    omega

/-- `unpackNodeBuf`; `none` when it panics. -/
def unpackNodeBuf (magic : UInt32) (link : Link) (buf : Bytes) : Option Link :=
  if buf = [] then some link
  else
    match header : receiveHeader magic link buf with
    | none => none
    | some (headed, none) => some headed
    | some (headed, some payload) =>
      match pay : receivePayload headed payload with
      | (paid, none) => some paid
      | (paid, some rest) => unpackNodeBuf magic paid rest
  termination_by link.unreadMeasure buf
  decreasing_by exact unreadMeasure_lt header pay

section Equations

variable {magic : UInt32} {link headed paid : Link} {buf payload : Bytes} {left : Option Bytes}

theorem unpackNodeBuf_of_header (some_bytes : buf ≠ [])
    (header : receiveHeader magic link buf = some (headed, none)) :
    unpackNodeBuf magic link buf = some headed := by
  rw [unpackNodeBuf, if_neg some_bytes]
  split <;> simp_all

theorem unpackNodeBuf_of_payload (some_bytes : buf ≠ [])
    (header : receiveHeader magic link buf = some (headed, some payload))
    (pay : receivePayload headed payload = (paid, left)) :
    unpackNodeBuf magic link buf =
      left.elim (some paid) fun rest => unpackNodeBuf magic paid rest := by
  rw [unpackNodeBuf, if_neg some_bytes]
  split
  · simp_all
  · simp_all
  · next h =>
    rw [header] at h
    simp only [Option.some.injEq, Prod.mk.injEq] at h
    obtain ⟨rfl, rfl⟩ := h
    cases left <;> split <;> simp_all

end Equations

/-! ## Messages on a stream -/

/-- A message as it stands on the wire: a whole header with the magic number of
the network, and as many payload bytes as the header says. -/
structure Message (magic : UInt32) where
  header : Bytes
  payload : Bytes
  header_length : header.length = msgHdrLen
  header_valid : validMsgHdr magic header = some true
  payload_length : payloadLen header = some payload.length

namespace Message

variable {magic : UInt32}

def bytes (message : Message magic) : Bytes := message.header ++ message.payload

theorem length_bytes (message : Message magic) :
    message.bytes.length = msgHdrLen + message.payload.length := by
  rw [bytes, List.length_append, message.header_length]

/-- A header in front of a payload of the length it names. -/
def ofHeader (hdr : MsgHdr) (payload : Bytes) (length : hdr.length.toNat = payload.length) :
    Message hdr.magic where
  header := hdr.serialization
  payload := payload
  header_length := hdr.length_serialization
  header_valid := by
    have read := hdr.deserialization_serialization []
    rw [List.append_nil] at read
    simp [validMsgHdr, read]
  payload_length := by
    have read := hdr.deserialization_serialization []
    rw [List.append_nil] at read
    simp [payloadLen, read, length]

/-- Messages one after the other. -/
def stream (messages : List (Message magic)) : Bytes := messages.flatMap bytes

@[simp] theorem stream_nil : stream ([] : List (Message magic)) = [] := rfl

@[simp] theorem stream_cons (message : Message magic) (rest : List (Message magic)) :
    stream (message :: rest) = message.bytes ++ stream rest := rfl

end Message

open Message

/-- The receive buffer followed by `unread` is a sequence of messages, and the
counter tells which part of the first one is incomplete. -/
inductive Awaits {magic : UInt32} : Link → List (Message magic) → Bytes → Prop
  | header {p unread : Bytes} {handled : List Bytes} {messages : List (Message magic)}
      (incomplete : p.length < msgHdrLen) (framed : p ++ unread = stream messages) :
      Awaits ⟨⟨p, 0⟩, handled⟩ messages unread
  | payload {p unread : Bytes} {len : Nat} {handled : List Bytes} {message : Message magic}
      {rest : List (Message magic)} (complete : msgHdrLen ≤ p.length) (missing : 0 < len)
      (length : p.length + len = message.bytes.length)
      (framed : p ++ unread = message.bytes ++ stream rest) :
      Awaits ⟨⟨p, len⟩, handled⟩ (message :: rest) unread

/-- From `before` to `after` some of the awaited messages were handed over. -/
def Advances {magic : UInt32} (before : Link) (messages : List (Message magic)) (after : Link)
    (unread : Bytes) : Prop :=
  ∃ delivered awaited, messages = delivered ++ awaited ∧
    after.handled = before.handled ++ delivered.map bytes ∧ Awaits after awaited unread

section Steps

variable {magic : UInt32} {link : Link} {message : Message magic} {messages rest : List (Message magic)}
  {buf unread : Bytes}

/-- Nothing was handed over. -/
theorem Awaits.advances {before after : Link} (awaits : Awaits after messages unread)
    (same : after.handled = before.handled) : Advances before messages after unread :=
  ⟨[], messages, rfl, by simp [same], awaits⟩

/-- Handing over the first message leaves an empty receive buffer. -/
theorem awaits_handleNodeMsg (framed : unread = stream rest) (msgBuf : Bytes) :
    Awaits (link.handleNodeMsg msgBuf) rest unread :=
  .header (by decide) framed

/-- After a first message was handed over, the rest follows. -/
theorem Advances.cons {after : Link}
    (advances : Advances (link.handleNodeMsg message.bytes) rest after unread) :
    Advances link (message :: rest) after unread := by
  obtain ⟨delivered, awaited, rfl, handled, awaits⟩ := advances
  refine ⟨message :: delivered, awaited, rfl, ?_, awaits⟩
  rw [handled]
  simp [Link.handleNodeMsg]

/-- The payload phase: the message is completed by the chunk, and the chunk may
go on, or the whole chunk belongs to it. -/
theorem receivePayload_awaits (complete : msgHdrLen ≤ link.rxBuf.p.length)
    (length : link.rxBuf.p.length + link.rxBuf.len = message.bytes.length)
    (framed : link.rxBuf.p ++ (buf ++ unread) = message.bytes ++ stream rest) :
    (∃ paid, receivePayload link buf = (paid, none) ∧
      Advances link (message :: rest) paid unread) ∨
    (∃ left, receivePayload link buf = (link.handleNodeMsg message.bytes, some left) ∧
      left ++ unread = stream rest) := by
  unfold receivePayload
  rcases lt_trichotomy buf.length link.rxBuf.len with less | equal | more
  · left
    refine ⟨⟨⟨link.rxBuf.p ++ buf, link.rxBuf.len - buf.length⟩, link.handled⟩,
      by simp only [if_neg less.ne, if_pos less], ?_⟩
    apply Awaits.advances _ rfl
    apply Awaits.payload
    · rw [List.length_append]
      omega
    · omega
    · rw [List.length_append]
      omega
    · rw [List.append_assoc, framed]
  · left
    rw [← List.append_assoc] at framed
    obtain ⟨whole, others⟩ := List.append_inj framed (by rw [List.length_append]; omega)
    refine ⟨link.handleNodeMsg message.bytes, by simp only [if_pos equal, whole], ?_⟩
    exact ((awaits_handleNodeMsg others _).advances rfl).cons
  · right
    have split : buf = buf.take link.rxBuf.len ++ buf.drop link.rxBuf.len := by simp
    rw [split, List.append_assoc, ← List.append_assoc] at framed
    obtain ⟨whole, others⟩ := List.append_inj framed (by
      rw [List.length_append, List.length_take]
      omega)
    refine ⟨_, ?_, others⟩
    simp only [if_neg more.ne', if_neg more.not_gt, whole]

/-- The header phase: the whole chunk belongs to an incomplete header, or the
header is completed and is that of the first awaited message. -/
theorem receiveHeader_awaits (awaits : Awaits link messages (buf ++ unread)) (some_bytes : buf ≠ []) :
    (∃ headed, receiveHeader magic link buf = some (headed, none) ∧
      Advances link messages headed unread) ∨
    (∃ headed payload message rest, receiveHeader magic link buf = some (headed, some payload) ∧
      messages = message :: rest ∧ headed.handled = link.handled ∧
      msgHdrLen ≤ headed.rxBuf.p.length ∧
      headed.rxBuf.p.length + headed.rxBuf.len = message.bytes.length ∧
      headed.rxBuf.p ++ (payload ++ unread) = message.bytes ++ stream rest ∧
      payload.length ≤ buf.length ∧ (payload.length = buf.length → 0 < headed.rxBuf.len)) := by
  cases awaits with
  | @payload p _ len handled message rest complete missing length framed =>
    right
    refine ⟨_, buf, message, rest, ?_, rfl, rfl, complete, length, framed, le_rfl, fun _ => missing⟩
    simp [receiveHeader, missing.ne']
  | @header p _ handled messages incomplete framed =>
    by_cases short : buf.length < msgHdrLen - p.length
    · left
      refine ⟨⟨⟨p ++ buf, 0⟩, handled⟩, by simp [receiveHeader, incomplete.not_gt, short], ?_⟩
      apply Awaits.advances _ rfl
      apply Awaits.header
      · rw [List.length_append]
        omega
      · rw [List.append_assoc, framed]
    · right
      obtain _ | ⟨message, rest⟩ := messages
      · have none_left := congrArg List.length framed
        simp only [stream_nil, List.length_append, List.length_nil] at none_left
        unfold msgHdrLen at short
        omega
      · have header_eq : p ++ buf.take (msgHdrLen - p.length) = message.header ∧
            buf.drop (msgHdrLen - p.length) ++ unread = message.payload ++ stream rest := by
          apply List.append_inj
          · rw [List.append_assoc, ← List.append_assoc (buf.take _), List.take_append_drop, framed,
              stream_cons, Message.bytes, List.append_assoc]
          · rw [List.length_append, List.length_take, message.header_length]
            omega
        refine ⟨⟨⟨message.header, message.payload.length⟩, handled⟩,
          buf.drop (msgHdrLen - p.length), message, rest, ?_, rfl, rfl, message.header_length.ge,
          ?_, ?_, by simp, ?_⟩
        · simp [receiveHeader, incomplete.not_gt, short, header_eq.1, message.header_valid,
            message.payload_length]
        · rw [message.header_length, message.length_bytes]
        · rw [header_eq.2, Message.bytes, List.append_assoc]
        · have := List.length_pos_iff.mpr some_bytes
          rw [List.length_drop]
          omega

/-- One chunk: whatever it completes is handed over, and the rest is awaited. -/
theorem unpackNodeBuf_advances (awaits : Awaits link messages (buf ++ unread)) :
    ∃ after, unpackNodeBuf magic link buf = some after ∧ Advances link messages after unread := by
  -- the recursive call is on a proper suffix of the chunk
  induction size : buf.length using Nat.strong_induction_on generalizing link messages buf with
  | _ size ih =>
    subst size
    by_cases some_bytes : buf = []
    · subst some_bytes
      exact ⟨link, by rw [unpackNodeBuf, if_pos rfl], awaits.advances rfl⟩
    · rcases receiveHeader_awaits awaits some_bytes with ⟨headed, header, advances⟩ |
        ⟨headed, payload, message, rest, header, rfl, handled, complete, length, framed, shorter,
          progress⟩
      · exact ⟨headed, unpackNodeBuf_of_header some_bytes header, advances⟩
      · have from_link {after : Link} (advances : Advances headed (message :: rest) after unread) :
            Advances link (message :: rest) after unread := by
          unfold Advances at advances ⊢
          rwa [← handled]
        rcases receivePayload_awaits complete length framed with ⟨paid, pay, advances⟩ |
          ⟨left, pay, framed⟩
        · exact ⟨paid, unpackNodeBuf_of_payload some_bytes header pay, from_link advances⟩
        · obtain ⟨-, rfl, more⟩ := receivePayload_rest pay
          have awaits_rest : Awaits (headed.handleNodeMsg message.bytes) rest
              (payload.drop headed.rxBuf.len ++ unread) := awaits_handleNodeMsg framed message.bytes
          obtain ⟨after, run, advances⟩ := ih (payload.drop headed.rxBuf.len).length
            (by rw [List.length_drop]; omega) awaits_rest rfl
          refine ⟨after, ?_, from_link advances.cons⟩
          rw [unpackNodeBuf_of_payload some_bytes header pay, Option.elim_some, run]

/-- A run over the chunks of a connection. -/
theorem foldlM_unpackNodeBuf_advances {chunks : List Bytes}
    (awaits : Awaits link messages (chunks.flatten ++ unread)) :
    ∃ after, chunks.foldlM (unpackNodeBuf magic) link = some after ∧
      Advances link messages after unread := by
  induction chunks generalizing link messages with
  | nil => exact ⟨link, rfl, awaits.advances rfl⟩
  | cons chunk chunks ih =>
    rw [List.flatten_cons, List.append_assoc] at awaits
    obtain ⟨middle, step, delivered, awaited, rfl, handled, awaits⟩ := unpackNodeBuf_advances awaits
    obtain ⟨after, run, delivered', awaited', rfl, handled', awaits'⟩ := ih awaits
    refine ⟨after, ?_, delivered ++ delivered', awaited', by simp, ?_, awaits'⟩
    · rw [List.foldlM_cons, step, Option.bind_eq_bind, Option.bind_some, run]
    · rw [handled', handled]
      simp

/-- At the end of the stream nothing is awaited. -/
theorem Awaits.at_end (awaits : Awaits link messages []) : messages = [] ∧ link.rxBuf = ⟨[], 0⟩ := by
  cases awaits with
  | payload complete missing length framed =>
    have lengths := congrArg List.length framed
    simp only [List.append_nil, List.length_append] at lengths
    omega
  | @header p _ handled messages incomplete framed =>
    rw [List.append_nil] at framed
    obtain _ | ⟨message, rest⟩ := messages
    · simp [framed]
    · have lengths := congrArg List.length framed
      rw [stream_cons, List.length_append, message.length_bytes] at lengths
      omega

end Steps

/-- However a stream of messages is cut into chunks, a fresh link hands over
exactly the messages, in order, and ends with an empty receive buffer. -/
theorem unpackNodeBuf_chunks {magic : UInt32} (messages : List (Message magic))
    (chunks : List Bytes) (cut : chunks.flatten = stream messages) :
    chunks.foldlM (unpackNodeBuf magic) Link.fresh =
      some { rxBuf := ⟨[], 0⟩, handled := messages.map bytes } := by
  have awaits : Awaits Link.fresh messages (chunks.flatten ++ []) :=
    .header (by decide) (by simp [cut])
  obtain ⟨⟨rxBuf, handled⟩, run, delivered, awaited, rfl, delivers, awaits⟩ :=
    foldlM_unpackNodeBuf_advances awaits
  obtain ⟨rfl, rfl⟩ := awaits.at_end
  rw [run]
  simpa [Link.fresh] using delivers

/-- A message without payload and one with three bytes, cut inside both headers
and inside the payload. -/
theorem unpackNodeBuf_two_messages :
    let verack : Message 0x74746e41 := .ofHeader
      ⟨0x74746e41, copyArray _ [0x76, 0x65, 0x72, 0x61, 0x63, 0x6b], 0, copyArray _ []⟩ [] rfl
    let tx : Message 0x74746e41 := .ofHeader
      ⟨0x74746e41, copyArray _ [0x74, 0x78], 3, copyArray _ []⟩ [1, 2, 3] rfl
    let wire := stream [verack, tx]
    [wire.take 7, (wire.drop 7).take 20, (wire.drop 27).take 22, wire.drop 49].foldlM
      (unpackNodeBuf 0x74746e41) Link.fresh =
      some { rxBuf := ⟨[], 0⟩, handled := [verack.bytes, tx.bytes] } :=
  unpackNodeBuf_chunks [_, _] _ (by decide +kernel)

end DnaPow.Net
