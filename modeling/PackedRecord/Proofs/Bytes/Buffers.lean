import PackedRecord.Proofs.Bytes.Reading
import PackedRecord.Proofs.Value.RoundTrip

/-!
# Buffers in use

Items are put into a buffer one behind the other, and taken from one by requests that say what to expect.
A request that the bytes do not suffice for fails, and the next one goes on where it left the source.

* `Request.source_of_ok`, `Request.source_of_error`: all that a single request can do to a source.
* `Item.exists_wire`, `exists_writeAll`: one item, and a whole sequence of them, taken out as it was put in.
* `buffers_in_step`: both for all sequences.
-/

namespace PackedRecord

/-- What is put into a buffer at once.  Floats go by their words. -/
inductive Item where
  | scalar (s : Scalar)
  | bytes (data : List UInt8)
  | text (s : String)

inductive Request where
  | scalar (kind : ScalarKind)
  | bytes (count : Nat)
  | text
  deriving DecidableEq

namespace Item

/-- What is put out for an item.  A text may be too long for its length. -/
def write : Item → Output Unit
  | scalar s => .ofBytes s.bytes
  | bytes data => .ofBytes data
  | text s => (textBytes? s).elim (.fail ()) .ofBytes

def request : Item → Request
  | scalar s => .scalar s.kind
  | bytes data => .bytes data.length
  | text _ => .text

end Item

def writeAll (buffer : Output Unit) (items : List Item) : Output Unit :=
  items.foldl (fun buffer item => buffer ++ item.write) buffer

namespace Request

def read : Request → Reading Unit Item
  | scalar .u8 => (fun b => .scalar (.u8 b)) <$> Reading.byte ()
  | scalar kind => (fun n => .scalar (.ofWord kind n)) <$> Reading.word () kind.width
  | bytes count => .bytes <$> Reading.bytes () count
  | text => .text <$> Reading.text ()

def readAll : List Request → Reading Unit (List Item)
  | [] => return []
  | request :: rest => do
    let item ← request.read
    let items ← readAll rest
    return item :: items

def leave (s : Source) (request : Request) : Source :=
  match request.read s with
  | .ok _ s' => s'
  | .error _ s' => s'

/-- The source after some requests, each made where the one before left it. -/
def leaveAll (requests : List Request) (s : Source) : Source :=
  requests.foldl leave s

end Request

/-! ## What a request does to a source -/

def Source.skip (s : Source) (n : Nat) : Source :=
  ⟨s.rest.drop n, s.index + n⟩

namespace Reading

variable {α β : Type}

theorem Takes.exists_skip {reading : Reading Unit α} {spells : List UInt8 → α → Prop}
    (takes : Takes reading spells) {s s' : Source} {v : α} (read : reading s = .ok v s') :
    ∃ n, n ≤ s.remaining ∧ s' = s.skip n := by
  obtain ⟨used, -, rest, index⟩ := (takes s v s').mp read
  obtain ⟨rest', index'⟩ := s'
  simp only at rest index
  refine ⟨used.length, ?_, ?_⟩
  · simp [Source.remaining, rest]
  · simp [Source.skip, rest, index]

/-- A reading that fails leaves the source as it was. -/
def Steady (reading : Reading Unit α) : Prop :=
  ∀ s fault s', reading s = .error fault s' → s' = s

theorem Steady.map {reading : Reading Unit α} (f : α → β) (steady : Steady reading) : Steady (f <$> reading) := by
  intro s fault s' failed
  exact steady s fault s' (map_eq_error_iff.mp failed)

theorem steady_byte : Steady (byte ()) := by
  intro s fault s' failed
  simp only [byte] at failed
  split at failed
  · cases failed
    rfl
  · cases failed

theorem bytes_eq_ok {n : Nat} {s s' : Source} {data : List UInt8} (read : bytes () n s = .ok data s') :
    n ≤ s.remaining ∧ s' = s.skip n := by
  simp only [bytes, List.length_take] at read
  split at read
  · cases read
    exact ⟨by simp only [Source.remaining]; omega, rfl⟩
  · cases read

theorem bytes_eq_error {n : Nat} {s s' : Source} {fault : Unit} (failed : bytes () n s = .error fault s') :
    s.remaining < n ∧ s' = s := by
  simp only [bytes, List.length_take] at failed
  split at failed
  · cases failed
  · cases failed
    exact ⟨by simp only [Source.remaining]; omega, rfl⟩

theorem steady_bytes (n : Nat) : Steady (bytes () n) :=
  fun _ _ _ failed => (bytes_eq_error failed).2

/-- Of a text that fails, the length has been taken if it was there. -/
theorem text_eq_error {s s' : Source} {fault : Unit} (failed : text () s = .error fault s') :
    s' = if 4 ≤ s.remaining then s.skip 4 else s := by
  rcases bind_eq_error_iff.mp failed with length | ⟨length, mid, read, failed⟩
  · obtain ⟨short, rfl⟩ := bytes_eq_error (map_eq_error_iff.mp length)
    rw [if_neg (by omega)]
  · obtain ⟨data, taken, -⟩ := map_eq_ok_iff.mp read
    obtain ⟨enough, rfl⟩ := bytes_eq_ok taken
    rcases bind_eq_error_iff.mp failed with payload | ⟨payload, last, -, impossible⟩
    · simp [enough, (bytes_eq_error payload).2]
    · cases impossible

end Reading

namespace Request

theorem exists_takes (request : Request) : ∃ spells, Reading.Takes request.read spells := by
  cases request with
  | scalar kind =>
    cases kind with
    | u8 => exact ⟨_, (Reading.takes_byte ()).map _⟩
    | _ => exact ⟨_, (Reading.takes_word () _).map _⟩
  | bytes count => exact ⟨_, (Reading.takes_bytes () count).map _⟩
  | text => exact ⟨_, (Reading.takes_text ()).map _⟩

theorem source_of_ok {request : Request} {s s' : Source} {item : Item} (read : request.read s = .ok item s') :
    ∃ n, n ≤ s.remaining ∧ s' = s.skip n := by
  obtain ⟨spells, takes⟩ := request.exists_takes
  exact takes.exists_skip read

theorem source_of_error {request : Request} {s s' : Source} {fault : Unit}
    (failed : request.read s = .error fault s') :
    s' = if request = .text ∧ 4 ≤ s.remaining then s.skip 4 else s := by
  cases request with
  | scalar kind =>
    cases kind with
    | u8 => simpa using Reading.steady_byte.map _ _ _ _ failed
    | _ => simpa using ((Reading.steady_bytes _).map ofLittleEndian).map _ _ _ _ failed
  | bytes count => simpa using (Reading.steady_bytes count).map _ _ _ _ failed
  | text => simpa using Reading.text_eq_error (Reading.map_eq_error_iff.mp failed)

/-- Whether or not a request is answered, it takes some of the bytes that are left. -/
theorem exists_leave (request : Request) (s : Source) : ∃ n, n ≤ s.remaining ∧ leave s request = s.skip n := by
  cases result : request.read s with
  | ok item s' => simpa [leave, result] using source_of_ok result
  | error fault s' =>
    have after : leave s request = s' := by simp [leave, result]
    rw [after, source_of_error result]
    split
    · rename_i both
      exact ⟨4, both.2, rfl⟩
    · exact ⟨0, Nat.zero_le _, by simp [Source.skip]⟩

end Request

/-! ## Sources over fixed data -/

/-- A source that stands somewhere in these bytes. -/
structure Source.Over (data : List UInt8) (s : Source) : Prop where
  index_le : s.index ≤ data.length
  rest_eq : s.rest = data.drop s.index

theorem Source.over_ofBytes (data : List UInt8) : (ofBytes data).Over data :=
  ⟨Nat.zero_le _, rfl⟩

theorem Source.Over.remaining_eq {data : List UInt8} {s : Source} (inside : s.Over data) :
    s.remaining = data.length - s.index := by
  simp [remaining, inside.rest_eq]

namespace Request

variable {data : List UInt8} {s : Source}

/-- One request keeps the source within the data, and never takes it back. -/
theorem over_leave (inside : s.Over data) (request : Request) :
    (leave s request).Over data ∧ s.index ≤ (leave s request).index := by
  obtain ⟨n, within, left⟩ := exists_leave request s
  rw [left]
  refine ⟨⟨?_, ?_⟩, Nat.le_add_right _ _⟩
  · rw [inside.remaining_eq] at within
    have := inside.index_le
    simp only [Source.skip]
    omega
  · simp [Source.skip, inside.rest_eq]

theorem over_leaveAll (inside : s.Over data) (requests : List Request) :
    (leaveAll requests s).Over data ∧ s.index ≤ (leaveAll requests s).index := by
  induction requests generalizing s with
  | nil => exact ⟨inside, Nat.le_refl _⟩
  | cons request requests inductionHypothesis =>
    obtain ⟨overNext, index⟩ := over_leave inside request
    obtain ⟨overAll, indexAll⟩ := inductionHypothesis overNext
    exact ⟨overAll, Nat.le_trans index indexAll⟩

end Request

/-! ## Writing and reading back -/

def Item.Short (item : Item) : Prop :=
  ∀ s, item = .text s → (Utf8.encode s).length < 2 ^ 32

/-- The bytes of an item answer its request with the item, wherever they are. -/
theorem Item.exists_wire {item : Item} (short : item.Short) :
    ∃ wire, item.write = .ofBytes wire ∧ ∀ rest index,
      item.request.read ⟨wire ++ rest, index⟩ = .ok item ⟨rest, index + wire.length⟩ := by
  cases item with
  | scalar s =>
    refine ⟨s.bytes, rfl, fun rest index => ?_⟩
    have width : s.bytes.length = s.kind.width := length_littleEndian _ _
    have back := s.ofWord_bytes
    cases s with
    | u8 n =>
      refine ((Reading.takes_byte ()).map _ _ _ _).mpr ⟨_, ⟨n, ?_, rfl⟩, rfl, rfl⟩
      simp [Scalar.bytes, Scalar.kind, Scalar.word, ScalarKind.width, littleEndian]
    | _ => exact ((Reading.takes_word () _).map _ _ _ _).mpr ⟨_, ⟨_, ⟨width, rfl⟩, congrArg _ back⟩, rfl, rfl⟩
  | bytes data =>
    refine ⟨data, rfl, fun rest index => ?_⟩
    exact ((Reading.takes_bytes () _).map _ _ _ _).mpr ⟨data, ⟨data, ⟨rfl, rfl⟩, rfl⟩, rfl, rfl⟩
  | text s =>
    have fits : (Utf8.encode s).length ≤ maxTextLength := Nat.le_of_lt_succ (short s rfl)
    refine ⟨littleEndian 4 (Utf8.encode s).length ++ Utf8.encode s, ?_, fun rest index => ?_⟩
    · simp [write, textBytes?, fits]
    · refine ((Reading.takes_text ()).map _ _ _ _).mpr ⟨_, ⟨s, ⟨_, _, rfl, by simp, ?_, ?_⟩, rfl⟩, rfl, rfl⟩
      · have small : (Utf8.encode s).length < 256 ^ 4 := short s rfl
        rw [ofLittleEndian_littleEndian, Nat.mod_eq_of_lt small]
      · rw [Utf8.decodeLossy_encode]

/-- Items in a row are put behind what a buffer holds, and answer their requests in a row. -/
theorem exists_writeAll {items : List Item} (short : ∀ item ∈ items, item.Short) (buffer : List UInt8) :
    ∃ wire, writeAll (.ofBytes buffer) items = .ofBytes (buffer ++ wire) ∧
      ∀ rest index, Request.readAll (items.map Item.request) ⟨wire ++ rest, index⟩ =
        .ok items ⟨rest, index + wire.length⟩ := by
  induction items generalizing buffer with
  | nil => exact ⟨[], by simp [writeAll], fun rest index => rfl⟩
  | cons item items inductionHypothesis =>
    obtain ⟨first, others⟩ := List.forall_mem_cons.mp short
    obtain ⟨front, written, answered⟩ := Item.exists_wire first
    obtain ⟨back, writtenRest, answeredRest⟩ := inductionHypothesis others (buffer ++ front)
    refine ⟨front ++ back, ?_, fun rest index => ?_⟩
    · rw [writeAll, List.foldl_cons, written, ← List.append_assoc]
      exact writtenRest
    · rw [List.map_cons, Request.readAll, Reading.bind_eq_ok_iff]
      refine ⟨item, ⟨back ++ rest, index + front.length⟩, by rw [List.append_assoc, answered], ?_⟩
      refine Reading.bind_eq_ok_iff.mpr ⟨items, _, answeredRest rest _, ?_⟩
      rw [List.length_append, ← Nat.add_assoc]
      rfl

/-- Whatever is written to a new buffer comes out by the mirrored reads, in order and with every bit of a
float, and nothing is left.  Reads of any data, whether they succeed or not, never go back and stay within the
data.  A read that fails stays where it is, except that one of a text has passed its length if that was there. -/
theorem buffers_in_step :
    (∀ items : List Item, (∀ s, .text s ∈ items → (Utf8.encode s).length < 2 ^ 32) →
      ∃ data s, (writeAll .empty items).complete = .ok data ∧
        Request.readAll (items.map Item.request) (.ofBytes data) = .ok items s ∧ s.remaining = 0) ∧
    ∀ (data : List UInt8) (earlier : List Request),
      let s := Request.leaveAll earlier (.ofBytes data)
      s.index ≤ data.length ∧ s.remaining = data.length - s.index ∧
      (∀ later, s.index ≤ (Request.leaveAll later s).index) ∧
      ∀ (request : Request) (fault : Unit) (s' : Source), request.read s = .error fault s' →
        s'.index = if request = .text ∧ 4 ≤ s.remaining then s.index + 4 else s.index := by
  constructor
  · intro items short
    have each : ∀ item ∈ items, item.Short := by
      rintro item listed s rfl
      exact short s listed
    obtain ⟨data, written, answered⟩ := exists_writeAll each []
    refine ⟨data, ⟨[], 0 + data.length⟩, congrArg Output.complete written, ?_, rfl⟩
    simpa [Source.ofBytes] using answered [] 0
  · intro data earlier s
    have inside : s.Over data := (Request.over_leaveAll (Source.over_ofBytes data) earlier).1
    refine ⟨inside.index_le, inside.remaining_eq, fun later => (Request.over_leaveAll inside later).2, ?_⟩
    intro request fault s' failed
    rw [Request.source_of_error failed]
    split <;> rfl

/-- The float is no number, and the text that is read here promises more bytes than there are. -/
theorem buffers_in_step_mixed :
    let items : List Item := [.scalar (.u8 7), .text "bruh", .scalar (.f32 0x7FC00001), .bytes [1, 2]]
    (∃ data s, (writeAll .empty items).complete = .ok data ∧
      Request.readAll (items.map Item.request) (.ofBytes data) = .ok items s ∧ s.remaining = 0) ∧
    ∃ s', Request.text.read (.ofBytes [9, 0, 0, 0, 98]) = .error () s' ∧ s'.index = 4 := by
  intro items
  have short : ∀ s, Item.text s ∈ items → (Utf8.encode s).length < 2 ^ 32 := by
    intro s listed
    obtain rfl : s = "bruh" := by simpa [items] using listed
    decide
  obtain ⟨s', failed⟩ : ∃ s', Request.text.read (.ofBytes [9, 0, 0, 0, 98]) = .error () s' := ⟨_, rfl⟩
  exact ⟨buffers_in_step.1 items short, s', failed,
    (buffers_in_step.2 [9, 0, 0, 0, 98] []).2.2.2 .text () s' failed⟩

end PackedRecord
