import CrossAsm.Proofs.Mcs51.Ram
import CrossAsm.Proofs.X64.Data

/-!
Storage under any requests. A session is a row of requests, each made of what the one before has left,
whether or not that one was granted. What an allocator hands out `Consecutive`ly, if a request that fails
leaves storage as it was (`Allocator.Steady`), tiles an interval without gaps (`Grant.Tiles`), and memory
holds the contents of the grants, one after the other. From this follows what both machines keep to over
every session (`Allocator.Orderly`, `storage_over_sessions`).
-/
namespace CrossAsm

variable {memory : Memory}

/-- A request for storage. -/
inductive StorageRequest where
  | var (init : Option Int64)
  | buffer (length : Int64)
  deriving DecidableEq, Repr

namespace StorageRequest

/-- The bytes asked for, where a variable takes `word` of them. -/
def size (word : Nat) : StorageRequest → Nat
  | var _ => word
  | buffer length => length.toInt.toNat

/-- What these bytes hold at first, where `value` gives those of a variable. -/
def contents (value : Option Int64 → List UInt8) : StorageRequest → List UInt8
  | var init => value init
  | buffer length => List.replicate length.toInt.toNat 0

theorem length_contents {value : Option Int64 → List UInt8} {word : Nat}
    (sized : ∀ init, (value init).length = word) (request : StorageRequest) :
    (request.contents value).length = request.size word := by
  cases request with
  | var init => exact sized init
  | buffer length => exact List.length_replicate

end StorageRequest

/-- A request that was granted, with the address it was given. -/
structure Grant where
  address : Nat
  request : StorageRequest
  deriving DecidableEq, Repr

namespace Grant

variable {word : Nat}

/-- The address is one of those that were granted. -/
def Covers (word : Nat) (g : Grant) (address : Nat) : Prop :=
  g.address ≤ address ∧ address < g.address + g.request.size word

/-- The bytes of all grants together. -/
def total (word : Nat) : List Grant → Nat
  | [] => 0
  | g :: later => g.request.size word + total word later

/-- The grants stand one after the other without gaps, from the address `low` up to `high`. -/
inductive Tiles (word : Nat) : Nat → List Grant → Nat → Prop where
  | nil (low : Nat) : Tiles word low [] low
  | cons {low high : Nat} {request : StorageRequest} {later : List Grant} :
      Tiles word (low + request.size word) later high → Tiles word low (⟨low, request⟩ :: later) high

namespace Tiles

variable {low high : Nat} {grants : List Grant}

theorem high_eq (tiles : Tiles word low grants high) : high = low + total word grants := by
  induction tiles with
  | nil => rfl
  | cons _ ih => rw [ih, total, Nat.add_assoc]

theorem bounds (tiles : Tiles word low grants high) {g : Grant} (member : g ∈ grants) :
    low ≤ g.address ∧ g.address + g.request.size word ≤ high := by
  induction tiles with
  | nil => cases member
  | cons rest ih =>
    cases member with
    | head =>
      have stop := rest.high_eq
      dsimp only
      omega
    | tail _ later =>
      have inside := ih later
      omega

theorem apart (tiles : Tiles word low grants high) :
    grants.Pairwise fun first second => first.address + first.request.size word ≤ second.address := by
  induction tiles with
  | nil => exact .nil
  | cons rest ih => exact .cons (fun _ later => (rest.bounds later).1) ih

end Tiles

/-- What the granted bytes hold at first. -/
def contents (value : Option Int64 → List UInt8) (grants : List Grant) : List UInt8 :=
  grants.flatMap fun g => g.request.contents value

section Contents

variable {value : Option Int64 → List UInt8} {low high : Nat} {grants : List Grant}
  (sized : ∀ init, (value init).length = word)
include sized

theorem length_contents (grants : List Grant) : (contents value grants).length = total word grants := by
  induction grants with
  | nil => rfl
  | cons g later ih =>
    rw [contents, List.flatMap_cons, List.length_append, StorageRequest.length_contents sized, total]
    exact congrArg _ ih

/-- Each grant holds its own contents. -/
theorem contents_of_mem (tiles : Tiles word low grants high) {g : Grant} (member : g ∈ grants) :
    ((contents value grants).drop (g.address - low)).take (g.request.size word) =
      g.request.contents value := by
  induction tiles with
  | nil => cases member
  | @cons low high request later rest ih =>
    have length := StorageRequest.length_contents sized request
    rw [contents, List.flatMap_cons]
    cases member with
    | head => simp [← length]
    | tail _ member =>
      have above := (rest.bounds member).1
      have skip : g.address - low =
          (request.contents value).length + (g.address - (low + request.size word)) := by
        omega
      rw [skip, List.drop_length_add_append]
      exact ih member

/-- What no variable covers is zero. -/
theorem contents_eq_zero (tiles : Tiles word low grants high) {offset : Nat} {byte : UInt8}
    (found : (contents value grants)[offset]? = some byte)
    (outside : ∀ g ∈ grants, ∀ init, g.request = .var init → ¬ g.Covers word (low + offset)) :
    byte = 0 := by
  induction tiles generalizing offset with
  | nil => simp [contents] at found
  | @cons low high request later rest ih =>
    obtain ⟨here, others⟩ := List.forall_mem_cons.mp outside
    have length := StorageRequest.length_contents sized request
    rw [contents, List.flatMap_cons, List.getElem?_append, length] at found
    split at found
    next inside =>
      cases request with
      | var init => exact absurd ⟨Nat.le_add_right _ _, Nat.add_lt_add_left inside _⟩ (here init rfl)
      | buffer size => exact List.eq_of_mem_replicate (List.mem_of_getElem? found)
    next beyond =>
      apply ih found
      intro g member init isVar covers
      apply others g member init isVar
      rwa [show low + request.size word + (offset - request.size word) = low + offset by omega] at covers

end Contents

end Grant

namespace Allocator

variable {σ : Type}

def serve (a : Allocator σ) : StorageRequest → EStateM Fault σ Nat
  | .var init => a.var init
  | .buffer length => a.buffer length

/-- The answer to a request, and the storage it leaves. -/
def ask (a : Allocator σ) (s : σ) (request : StorageRequest) : Except Fault Nat × σ :=
  match a.serve request s with
  | .ok address next => (.ok address, next)
  | .error fault left => (.error fault, left)

/-- The storage after a session. -/
def after (a : Allocator σ) (s : σ) (requests : List StorageRequest) : σ :=
  requests.foldl (fun s request => (a.ask s request).2) s

/-- What a session is granted. -/
def grants (a : Allocator σ) (s : σ) : List StorageRequest → List Grant
  | [] => []
  | request :: later =>
    ((a.ask s request).1.toOption.map fun address => ⟨address, request⟩).toList ++
      grants a (a.ask s request).2 later

/-- What holds of storage over every session that begins at `start`. Variables take `word` bytes, and
addresses begin at `base`; `next` is the next free one, and `image` the initial memory. -/
structure Orderly (a : Allocator σ) (start : σ) (base word : Nat) (next : σ → Nat)
    (image : σ → List UInt8) : Prop where
  /-- A request that fails changes nothing. -/
  failed : ∀ earlier request fault, (a.ask (a.after start earlier) request).1 = .error fault →
    a.after start (earlier ++ [request]) = a.after start earlier
  /-- One that succeeds gets the address behind all that succeeded before. -/
  granted : ∀ earlier request address, (a.ask (a.after start earlier) request).1 = .ok address →
    address = base + Grant.total word (a.grants start earlier) ∧
      a.grants start (earlier ++ [request]) = a.grants start earlier ++ [⟨address, request⟩]
  /-- There are no gaps, from the first address up to the next free one. -/
  tiles : ∀ requests,
    Grant.Tiles word base (a.grants start requests) (next (a.after start requests))
  apart : ∀ requests, (a.grants start requests).Pairwise fun first second =>
    first.address + first.request.size word ≤ second.address
  /-- Bytes that were granted stay as they are. -/
  stays : ∀ requests later, ∀ g ∈ a.grants start requests, ∀ address, g.Covers word address →
    (image (a.after start (requests ++ later)))[address]? = (image (a.after start requests))[address]?
  /-- The bytes of a variable, the low one first, read as its initial value modulo what they can hold. -/
  var : ∀ requests address init, ⟨address, .var init⟩ ∈ a.grants start requests →
    let bytes := ((image (a.after start requests)).drop address).take word
    bytes.length = word ∧ (LittleEndian.value bytes : Int) = (init.getD 0).toInt % Nat.pow 256 word
  /-- What no variable covers is zero. -/
  zero : ∀ requests address byte, (image (a.after start requests))[address]? = some byte →
    (∀ g ∈ a.grants start requests, ∀ init, g.request = .var init → ¬ g.Covers word address) → byte = 0

section Sessions

variable {a : Allocator σ} {s : σ} {request : StorageRequest}

theorem after_append (a : Allocator σ) (s : σ) (earlier later : List StorageRequest) :
    a.after s (earlier ++ later) = a.after (a.after s earlier) later :=
  List.foldl_append

theorem grants_append (a : Allocator σ) (s : σ) (earlier later : List StorageRequest) :
    a.grants s (earlier ++ later) = a.grants s earlier ++ a.grants (a.after s earlier) later := by
  induction earlier generalizing s with
  | nil => rfl
  | cons request earlier ih =>
    rw [List.cons_append, grants, ih, grants, List.append_assoc]
    rfl

theorem ask_of_ok {address : Nat} (granted : (a.ask s request).1 = .ok address) :
    a.serve request s = .ok address (a.ask s request).2 := by
  rw [ask] at granted ⊢
  cases served : a.serve request s with
  | error fault left =>
    rw [served] at granted
    cases granted
  | ok address next =>
    rw [served] at granted
    cases granted
    rfl

theorem ask_of_error {fault : Fault} (failed : (a.ask s request).1 = .error fault) :
    a.serve request s = .error fault (a.ask s request).2 := by
  rw [ask] at failed ⊢
  cases served : a.serve request s with
  | error fault left =>
    rw [served] at failed
    cases failed
    rfl
  | ok address next =>
    rw [served] at failed
    cases failed

/-- A request fails if it does not succeed. -/
theorem exists_error_iff :
    (∃ fault, (a.ask s request).1 = .error fault) ↔
      ¬ ∃ address next, a.serve request s = .ok address next := by
  constructor
  · rintro ⟨fault, failed⟩ ⟨address, next, served⟩
    cases (ask_of_error failed).symm.trans served
  · intro refused
    cases answered : (a.ask s request).1 with
    | error fault => exact ⟨fault, rfl⟩
    | ok address => exact absurd ⟨address, _, ask_of_ok answered⟩ refused

end Sessions

/-- A request that fails leaves storage as it was. -/
def Steady (a : Allocator σ) : Prop :=
  ∀ request s fault left, a.serve request s = .error fault left → left = s

theorem Steady.ask {a : Allocator σ} (steady : a.Steady) {s : σ} {request : StorageRequest}
    {fault : Fault} (failed : (a.ask s request).1 = .error fault) : (a.ask s request).2 = s :=
  steady request s fault _ (ask_of_error failed)

section Consecutive

variable {a : Allocator σ} {base word : Nat} {holds : σ → List UInt8 → Prop}
  {value : Option Int64 → List UInt8} (consecutive : a.Consecutive base word holds value)
include consecutive

/-- A request that succeeds gets the bytes behind those handed out so far. -/
theorem Consecutive.ask {s : σ} {bytes : List UInt8} (here : holds s bytes) {request : StorageRequest}
    {address : Nat} (granted : (a.ask s request).1 = .ok address) :
    address = base + bytes.length ∧ holds (a.ask s request).2 (bytes ++ request.contents value) := by
  have served := ask_of_ok granted
  generalize (a.ask s request).2 = next at served
  cases request with
  | var init => exact consecutive.var here served
  | buffer length => exact consecutive.buffer here served

/-- What a session is granted stands behind what was there, without gaps, and holds its initial values. -/
theorem Consecutive.session (steady : a.Steady) {s : σ} {bytes : List UInt8} (here : holds s bytes)
    (requests : List StorageRequest) :
    Grant.Tiles word (base + bytes.length) (a.grants s requests)
        (base + bytes.length + Grant.total word (a.grants s requests)) ∧
      holds (a.after s requests) (bytes ++ Grant.contents value (a.grants s requests)) := by
  induction requests generalizing s bytes with
  | nil => exact ⟨.nil _, (List.append_nil bytes).symm ▸ here⟩
  | cons request later ih =>
    change _ ∧ holds (a.after (a.ask s request).2 later) _
    rw [grants]
    cases answered : (a.ask s request).1 with
    | error fault =>
      rw [steady.ask answered]
      exact ih here
    | ok address =>
      obtain ⟨rfl, more⟩ := consecutive.ask here answered
      obtain ⟨tiles, held⟩ := ih more
      rw [List.length_append, StorageRequest.length_contents consecutive.sized, ← Nat.add_assoc,
        Nat.add_assoc (base + bytes.length)] at tiles
      rw [List.append_assoc] at held
      exact ⟨.cons tiles, held⟩

section Image

variable (steady : a.Steady) {start : σ} (empty : holds start []) {next : σ → Nat}
  {image : σ → List UInt8} (free : ∀ s bytes, holds s bytes → next s = base + bytes.length)
  (framed : ∀ s bytes, holds s bytes →
    ∃ rest, image s = List.replicate base 0 ++ (bytes ++ List.replicate rest 0))
  (reads : ∀ init, (LittleEndian.value (value init) : Int) = (init.getD 0).toInt % Nat.pow 256 word)

include steady empty

theorem Consecutive.holds_after (requests : List StorageRequest) :
    holds (a.after start requests) (Grant.contents value (a.grants start requests)) :=
  (consecutive.session steady empty requests).2

theorem Consecutive.tiles (requests : List StorageRequest) :
    Grant.Tiles word base (a.grants start requests)
      (base + Grant.total word (a.grants start requests)) :=
  (consecutive.session steady empty requests).1

include framed

omit consecutive steady empty in
/-- Memory holds what was handed out from the first address on. -/
theorem getElem?_image {s : σ} {bytes : List UInt8} (here : holds s bytes) {address : Nat}
    (low : base ≤ address) (high : address < base + bytes.length) :
    (image s)[address]? = bytes[address - base]? := by
  obtain ⟨rest, whole⟩ := framed s bytes here
  rw [whole, List.getElem?_append_right (by simpa using low), List.length_replicate,
    List.getElem?_append_left (by omega)]

/-- Memory holds the initial bytes of every variable. -/
theorem Consecutive.image_of_var {requests : List StorageRequest} {address : Nat} {init : Option Int64}
    (member : ⟨address, .var init⟩ ∈ a.grants start requests) :
    ((image (a.after start requests)).drop address).take word = value init := by
  have tiles := consecutive.tiles steady empty requests
  have total := Grant.length_contents consecutive.sized (a.grants start requests)
  obtain ⟨low, high⟩ := tiles.bounds member
  obtain ⟨rest, whole⟩ := framed _ _ (consecutive.holds_after steady empty requests)
  have held := Grant.contents_of_mem consecutive.sized tiles member
  dsimp only [StorageRequest.size] at low high held
  rw [whole, List.drop_append, List.drop_replicate, List.length_replicate, Nat.sub_eq_zero_of_le low,
    List.replicate_zero, List.nil_append, List.drop_append_of_le_length (by omega),
    List.take_append_of_le_length (by rw [List.length_drop]; omega)]
  exact held

include free reads in
/-- Storage that is handed out consecutively, and stands in memory between zeros, is orderly. -/
theorem Consecutive.orderly : a.Orderly start base word next image where
  failed earlier request fault failed := by
    rw [after_append]
    exact steady.ask failed
  granted earlier request address granted := by
    refine ⟨?_, ?_⟩
    · rw [(consecutive.ask (consecutive.holds_after steady empty earlier) granted).1,
        Grant.length_contents consecutive.sized]
    · rw [grants_append, grants, granted]
      rfl
  tiles requests := by
    rw [free _ _ (consecutive.holds_after steady empty requests), Grant.length_contents consecutive.sized]
    exact consecutive.tiles steady empty requests
  apart requests := (consecutive.tiles steady empty requests).apart
  stays requests later g member address covers := by
    obtain ⟨low, high⟩ := (consecutive.tiles steady empty requests).bounds member
    obtain ⟨above, below⟩ := covers
    have total := Grant.length_contents consecutive.sized (a.grants start requests)
    have here := consecutive.holds_after steady empty requests
    have grown := (consecutive.session steady here later).2
    have inside : address - base < (Grant.contents value (a.grants start requests)).length := by omega
    calc (image (a.after start (requests ++ later)))[address]?
      _ = (_ ++ _)[address - base]? := by
        rw [after_append]
        exact getElem?_image framed grown (by omega) (by simp only [List.length_append]; omega)
      _ = _ := List.getElem?_append_left inside
      _ = _ := (getElem?_image framed here (by omega) (by omega)).symm
  var requests address init member := by
    rw [consecutive.image_of_var steady empty framed member]
    exact ⟨consecutive.sized init, reads init⟩
  zero requests address byte found outside := by
    obtain ⟨rest, whole⟩ := framed _ _ (consecutive.holds_after steady empty requests)
    have tiles := consecutive.tiles steady empty requests
    rw [whole, List.getElem?_append, List.length_replicate] at found
    split at found
    next => exact List.eq_of_mem_replicate (List.mem_of_getElem? found)
    next above =>
      rw [List.getElem?_append] at found
      split at found
      next =>
        apply Grant.contents_eq_zero consecutive.sized tiles found
        rwa [show base + (address - base) = address by omega]
      next => exact List.eq_of_mem_replicate (List.mem_of_getElem? found)

end Image

end Consecutive

end Allocator

namespace Mcs51.Ram

/-- The initial value fits in a byte, with or without a sign, or the length is one that RAM has. -/
def InRange : StorageRequest → Prop
  | .var init => -128 ≤ (init.getD 0).toInt ∧ (init.getD 0).toInt ≤ 255
  | .buffer length => 1 ≤ length.toInt ∧ length.toInt ≤ 128

theorem allocator_steady : allocator.Steady
  | .var _, _, _, _, failed => (var_eq_error failed).2
  | .buffer _, _, _, _, failed => (buffer_eq_error failed).2

theorem holds_after (requests : List StorageRequest) :
    Holds (allocator.after {} requests)
      (Grant.contents (fun init => [variableByte init]) (allocator.grants {} requests)) :=
  allocator_consecutive.holds_after allocator_steady .nil requests

theorem orderly : allocator.Orderly {} 0x30 1 next image :=
  allocator_consecutive.orderly allocator_steady .nil (fun _ _ holds => holds.next_eq)
    (fun _ _ holds => ⟨_, holds.image_eq⟩) toNat_variableByte

theorem exists_serve_iff {ram : Ram} {request : StorageRequest} :
    (∃ address after, allocator.serve request ram = .ok address after) ↔
      InRange request ∧ ram.next + request.size 1 ≤ 0x80 := by
  cases request with
  | var init =>
    simp only [Allocator.serve, var_eq_ok_iff, getD_map_toInt, InRange, StorageRequest.size, size]
    simp
  | buffer length =>
    simp only [Allocator.serve, buffer_eq_ok_iff, InRange, StorageRequest.size, exists_and_left,
      exists_eq, and_true, size]
    omega

end Mcs51.Ram

namespace X64.Data

/-- The length of a buffer is one that a displacement can span. -/
def InRange : StorageRequest → Prop
  | .var _ => True
  | .buffer length => 1 ≤ length.toInt ∧ length.toInt ≤ 0x7FFFFFFF

theorem allocator_steady : (allocator memory).Steady
  | .var _, _, _, _, failed => (var_eq_error failed).2.2
  | .buffer _, _, _, _, failed => (buffer_eq_error failed).2

theorem orderly : (allocator memory).Orderly {} 0 8 size bytes := by
  refine allocator_consecutive.orderly allocator_steady rfl ?_ ?_ value_variableBytes
  · rintro d _ rfl
    exact (Nat.zero_add _).symm
  · rintro d _ rfl
    exact ⟨0, by simp⟩

theorem exists_serve_iff {d : Data} {request : StorageRequest} :
    (∃ address after, (allocator memory).serve request d = .ok address after) ↔
      InRange request ∧ d.size + request.size 8 < memory.limit := by
  cases request with
  | var init =>
    simp only [Allocator.serve, var_eq_ok_iff, InRange, StorageRequest.size]
    simp
  | buffer length =>
    simp only [Allocator.serve, buffer_eq_ok_iff, InRange, StorageRequest.size, longestBuffer]
    simp

end X64.Data

/-- Whatever is asked for, and goes on being asked for after failures: both machines hand out storage one
request after the other, and what is handed out keeps its initial values. In internal RAM a request fails
exactly if its argument is out of range or it is larger than what is left up to 0x80. In the data region it
fails exactly if its length is out of range or memory ends. -/
theorem storage_over_sessions (memory : Memory) :
    Mcs51.Ram.allocator.Orderly {} 0x30 1 Mcs51.Ram.next Mcs51.Ram.image ∧
    (∀ requests, let ram := Mcs51.Ram.allocator.after {} requests
      ram.image.length = 0x80 ∧ 0x30 ≤ ram.next ∧ ram.next ≤ 0x80 ∧
      ∀ request, (∃ fault, (Mcs51.Ram.allocator.ask ram request).1 = .error fault) ↔
        ¬ Mcs51.Ram.InRange request ∨ 0x80 - ram.next < request.size 1) ∧
    (X64.Data.allocator memory).Orderly {} 0 8 X64.Data.size X64.Data.bytes ∧
    (∀ requests request, let d := (X64.Data.allocator memory).after {} requests
      (∃ fault, ((X64.Data.allocator memory).ask d request).1 = .error fault) ↔
        ¬ X64.Data.InRange request ∨ memory.limit ≤ d.size + request.size 8) := by
  refine ⟨Mcs51.Ram.orderly, ?_, X64.Data.orderly, ?_⟩
  · intro requests ram
    have holds := Mcs51.Ram.holds_after requests
    have low : 0x30 ≤ ram.next := holds.next_eq ▸ Nat.le_add_right _ _
    refine ⟨holds.length_image, low, holds.next_le, fun request => ?_⟩
    have room : ¬ ram.next + request.size 1 ≤ 0x80 ↔ 0x80 - ram.next < request.size 1 := by
      have high : ram.next ≤ 0x80 := holds.next_le
      omega
    rw [Allocator.exists_error_iff, Mcs51.Ram.exists_serve_iff, Classical.not_and_iff_not_or_not, room]
  · intro requests request d
    rw [Allocator.exists_error_iff, X64.Data.exists_serve_iff, Classical.not_and_iff_not_or_not, Nat.not_lt]

-- the last free byte is still granted, after a request that fails and before one that finds no room
example : Mcs51.Ram.allocator.grants {} [.buffer 0x4F, .var (some 256), .var (some (-1)), .var none] =
    [⟨0x30, .buffer 0x4F⟩, ⟨0x7F, .var (some (-1))⟩] := by decide

end CrossAsm
