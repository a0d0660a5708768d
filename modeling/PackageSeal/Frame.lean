import PackageSeal.Disk.Walk
import PackageSeal.Log

/-!
# Frames

The signed stream of a roster is its members framed one after the other, in the order of their
names. A frame is the octets of the name, a zero, the size of the content in eight octets, least
significant first, and the content. Because a name holds no zero and the size is exact, a stream can
be taken apart in one way only.

`Frame.octets` is a frame at hand. `Frame.send` sends one to a sink that may refuse octets, from a
reading that may bring fewer octets than declared.
-/

namespace PackageSeal

/-! ## Sinks -/

/-- A receiver of octets: the state after some octets, and whether it took them all. -/
structure Sink (σ : Type) where
  accept : σ → Bytes → σ × Bool

namespace Sink

variable {σ : Type}

/-- Send pieces one after the other until one is not taken whole. -/
def feed (sink : Sink σ) : σ → List Bytes → σ × Bool
  | state, [] => (state, true)
  | state, piece :: rest =>
    match sink.accept state piece with
    | (state, true) => feed sink state rest
    | (state, false) => (state, false)

/-- The sink that takes everything. -/
def ofAbsorb (absorb : σ → Bytes → σ) : Sink σ :=
  ⟨fun state piece => (absorb state piece, true)⟩

/-- A sink that takes everything takes the pieces in turn. -/
theorem feed_ofAbsorb (absorb : σ → Bytes → σ) (state : σ) (parts : List Bytes) :
    (ofAbsorb absorb).feed state parts = (parts.foldl absorb state, true) := by
  induction parts generalizing state with
  | nil => rfl
  | cons piece rest ih => exact ih (absorb state piece)

end Sink

/-- Octets received, and how many more there is room for, if there is a bound. -/
structure Buffer where
  octets : Bytes
  room : Option Nat
deriving DecidableEq

namespace Buffer

/-- An empty buffer. -/
def empty (room : Option Nat) : Buffer :=
  ⟨[], room⟩

/-- Take as many octets as there is room for. -/
def accept (buffer : Buffer) (piece : Bytes) : Buffer × Bool :=
  match buffer.room with
  | none => (⟨buffer.octets ++ piece, none⟩, true)
  | some room =>
    (⟨buffer.octets ++ piece.take room, some (room - piece.length)⟩, piece.length ≤ room)

/-- The sink that fills a buffer. -/
def sink : Sink Buffer :=
  ⟨accept⟩

end Buffer

/-! ## Readings -/

/-- What reading a content brings: chunks, and after them the end or a fault. -/
structure Reading where
  chunks : List Bytes
  fault : Option IoError := none

namespace Reading

/-- The reading of an open node. -/
def ofNode (node : Node) : Reading :=
  match Disk.contentOf node with
  | .ok content => { chunks := [content] }
  | .error cause => ⟨[], some cause⟩

/-- The octets of the chunks. -/
def octets (reading : Reading) : Bytes :=
  reading.chunks.flatten

end Reading

namespace Frame

/-- The largest piece in which content is sent. -/
def blockSize : Nat := 8192

/-- The pieces before the content. -/
def headerParts (name : MemberName) (size : Nat) : List Bytes :=
  [name.octets, [0], littleEndian 8 size]

/-- What stands before the content. -/
def header (name : MemberName) (size : Nat) : Bytes :=
  name.octets ++ 0 :: littleEndian 8 size

/-- A frame with its content at hand. -/
def octets (name : MemberName) (content : Bytes) : Bytes :=
  header name content.length ++ content

/-- The pieces in which the first `limit` octets of the chunks are sent. -/
def contentParts : Nat → List Bytes → List Bytes
  | _, [] => []
  | limit, chunk :: rest =>
    pieces blockSize (chunk.take limit) ++ contentParts (limit - chunk.length) rest

theorem flatten_headerParts (name : MemberName) (size : Nat) :
    (headerParts name size).flatten = header name size := by
  simp [headerParts, header]

/-- The pieces of the content are the first octets of the chunks. -/
theorem flatten_contentParts (limit : Nat) (chunks : List Bytes) :
    (contentParts limit chunks).flatten = chunks.flatten.take limit := by
  induction chunks generalizing limit with
  | nil => simp [contentParts]
  | cons chunk rest ih =>
    rw [contentParts, List.flatten_append, flatten_pieces (by decide), ih, List.flatten_cons,
      List.take_append]

/-- Send the header alone. -/
def sendHeader {σ : Type} (sink : Sink σ) (name : MemberName) (size : Nat) (state : σ) :
    σ × Except IoError Unit :=
  match sink.feed state (headerParts name size) with
  | (state, true) => (state, .ok ())
  | (state, false) => (state, .error .refused)

/-- Send a frame with the declared size. Content beyond it is not read; where there is less, or the
sink takes no more, sending fails, but what was sent stays sent. -/
def send {σ : Type} (sink : Sink σ) (name : MemberName) (size : Nat) (reading : Reading)
    (state : σ) : σ × Except IoError Unit :=
  match sink.feed state (headerParts name size ++ contentParts size reading.chunks) with
  | (state, false) => (state, .error .refused)
  | (state, true) =>
    let copied := min size reading.octets.length
    if copied = size then (state, .ok ())
    else
      match reading.fault with
      | some cause => (state, .error cause)
      | none => (state, .error (.shortContent name.text size copied))

/-! ## Members -/

/-- Send the frame of a member, its content read from its source. -/
def sendMember {σ : Type} (disk : Disk) (sink : Sink σ) (state : σ) (member : Member) :
    Logged Failure σ :=
  match disk.find member.source with
  | .error cause => .fail (.access .opening member.source cause)
  | .ok (_, node) => do
    Logged.tell (.framing member.name (Disk.sizeOf node) member.source)
    match send sink member.name (Disk.sizeOf node) (.ofNode node) state with
    | (state, .ok ()) => pure state
    | (_, .error cause) => .fail (.access .framing member.source cause)

/-- Send the frames of all members in the order of their names. -/
def sendRoster {σ : Type} (disk : Disk) (sink : Sink σ) (roster : Roster) (state : σ) :
    Logged Failure σ :=
  roster.members.foldlM (sendMember disk sink) state

/-- The signed stream of a roster. -/
def stream (disk : Disk) (roster : Roster) : Logged Failure Bytes :=
  Buffer.octets <$> sendRoster disk Buffer.sink roster (Buffer.empty none)

end Frame

end PackageSeal
