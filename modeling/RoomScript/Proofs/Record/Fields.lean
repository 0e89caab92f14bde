import RoomScript.World

/-!
# The fields of records

A record is told by its fields in the order of their declaration. Its layout writes them one after another:
a byte as it is, a word with its low byte first, a signed word as the word with the same bits.
-/
namespace RoomScript

/-- One field of a record. -/
inductive Field where
  | byte (value : UInt8)
  | word (value : UInt16)
  | int (value : Int16)
  deriving DecidableEq

def Field.bytes : Field → List UInt8
  | byte value => [value]
  | word value => wordBytes value
  | int value => wordBytes value.toUInt16

/-- The bytes of some fields, one field after another. -/
def Field.encode (fields : List Field) : List UInt8 := fields.flatMap Field.bytes

@[simp] theorem Field.encode_append (a b : List Field) : encode (a ++ b) = encode a ++ encode b :=
  List.flatMap_append

/-- Bytes as fields are written as they are. -/
@[simp] theorem Field.encode_map_byte (bytes : List UInt8) : encode (bytes.map .byte) = bytes := by
  induction bytes with
  | nil => rfl
  | cons b bytes ih => exact congrArg (b :: ·) ih

def Point.fields (p : Point) : List Field := [.int p.x, .int p.z]

def Rect.fields (r : Rect) : List Field := [.int r.x, .int r.z, .word r.width, .word r.depth]

def Quad.fields (q : Quad) : List Field := q.corners.toList.flatMap Point.fields

def TriggerHeader.fields (h : TriggerHeader) : List Field :=
  [.byte h.aot, .byte h.sce, .byte h.sat, .byte h.floor, .byte h.superId]

def DoorDestination.fields (d : DoorDestination) : List Field :=
  [.int d.x, .int d.y, .int d.z, .int d.dir, .byte d.stage, .byte d.room, .byte d.camera,
    .byte d.floor, .byte d.textureType, .byte d.doorType, .byte d.knock, .byte d.keyId,
    .byte d.keyType, .byte d.free]

def ItemPlacement.fields (i : ItemPlacement) : List Field :=
  [.word i.itemId, .word i.amount, .word i.pickupFlag, .byte i.modelId, .byte i.action]

section

variable {S : Type} (shape : S → List Field)

def AreaTrigger.fields (t : AreaTrigger S) : List Field :=
  t.header.fields ++ shape t.shape ++ t.data.toList.map .byte

def DoorTrigger.fields (t : DoorTrigger S) : List Field :=
  t.header.fields ++ shape t.shape ++ t.destination.fields

def ItemTrigger.fields (t : ItemTrigger S) : List Field :=
  t.header.fields ++ shape t.shape ++ t.item.fields

end

def TriggerReset.fields (r : TriggerReset) : List Field :=
  [.byte r.aot, .byte r.sce, .byte r.sat] ++ r.data.toList.map .byte

def EnemySpawn.fields (e : EnemySpawn) : List Field :=
  [.byte e.aot, .byte e.model, .byte e.pose, .byte e.behavior, .byte e.floor, .byte e.soundBank,
    .byte e.texture, .byte e.killId, .int e.x, .int e.y, .int e.z, .int e.dir, .word e.motion,
    .word e.controlFlags]

def SpriteSpawn.fields (s : SpriteSpawn) : List Field :=
  [.byte s.id, .byte s.kind, .word s.flags, .int s.x, .int s.y, .int s.z, .int s.dir]

def Position.fields (p : Position) : List Field := [.int p.x, .int p.y, .int p.z]

namespace Layout

variable {α β : Type}

/-- A layout writes the fields of a value one after another. -/
def WritesFields (l : Layout α) (fields : α → List Field) : Prop :=
  ∀ a, l.write a = Field.encode (fields a)

theorem WritesFields.pair {l : Layout α} {r : Layout β} {f : α → List Field} {g : β → List Field}
    (hl : l.WritesFields f) (hr : r.WritesFields g) :
    (l.pair r).WritesFields fun v => f v.1 ++ g v.2 := by
  intro v
  simp only [Layout.pair, hl v.1, hr v.2, Field.encode_append]

/-- Equal fields are written first to last. -/
theorem write_repeated (l : Layout α) {n : Nat} (v : Vector α n) :
    (l.repeated n).write v = v.toList.flatMap l.write := by
  induction n with
  | zero =>
      obtain rfl : v = #v[] := by simp
      rfl
  | succ n ih =>
      have hv : v.toList = v.pop.toList ++ [v.back] := by
        rw [← Vector.toList_push, Vector.push_pop_back]
      rw [hv, List.flatMap_append, List.flatMap_singleton, ← ih]
      rfl

theorem WritesFields.repeated {l : Layout α} {f : α → List Field} (h : l.WritesFields f) (n : Nat) :
    (l.repeated n).WritesFields fun v => v.toList.flatMap f := by
  intro v
  rw [write_repeated, Field.encode, List.flatMap_assoc]
  exact congrArg (v.toList.flatMap ·) (funext h)

theorem writesFields_bytes (n : Nat) :
    (byte.repeated n).WritesFields fun v => v.toList.map .byte := by
  intro v
  rw [write_repeated, Field.encode_map_byte]
  exact List.flatMap_singleton' _

end Layout

open Layout

theorem Point.writesFields : Point.layout.WritesFields Point.fields := fun _ => rfl

theorem Rect.writesFields : Rect.layout.WritesFields Rect.fields := fun _ => rfl

theorem Quad.writesFields : Quad.layout.WritesFields Quad.fields :=
  fun q => Point.writesFields.repeated 4 q.corners

theorem TriggerHeader.writesFields : TriggerHeader.layout.WritesFields TriggerHeader.fields :=
  fun _ => rfl

theorem DoorDestination.writesFields :
    DoorDestination.layout.WritesFields DoorDestination.fields := fun _ => rfl

theorem ItemPlacement.writesFields : ItemPlacement.layout.WritesFields ItemPlacement.fields :=
  fun _ => rfl

section

variable {S : Type} {shape : Layout S} {f : S → List Field}

theorem AreaTrigger.writesFields (h : shape.WritesFields f) :
    (AreaTrigger.layout shape).WritesFields (AreaTrigger.fields f) := by
  intro t
  have hw := TriggerHeader.writesFields.pair (h.pair (writesFields_bytes 6))
  rw [AreaTrigger.fields, List.append_assoc]
  exact hw (t.header, t.shape, t.data)

theorem DoorTrigger.writesFields (h : shape.WritesFields f) :
    (DoorTrigger.layout shape).WritesFields (DoorTrigger.fields f) := by
  intro t
  have hw := TriggerHeader.writesFields.pair (h.pair DoorDestination.writesFields)
  rw [DoorTrigger.fields, List.append_assoc]
  exact hw (t.header, t.shape, t.destination)

theorem ItemTrigger.writesFields (h : shape.WritesFields f) :
    (ItemTrigger.layout shape).WritesFields (ItemTrigger.fields f) := by
  intro t
  have hw := TriggerHeader.writesFields.pair (h.pair ItemPlacement.writesFields)
  rw [ItemTrigger.fields, List.append_assoc]
  exact hw (t.header, t.shape, t.item)

end

theorem TriggerReset.writesFields : TriggerReset.layout.WritesFields TriggerReset.fields := by
  intro r
  rw [TriggerReset.fields, Field.encode_append, ← writesFields_bytes 6 r.data]
  rfl

theorem EnemySpawn.writesFields : EnemySpawn.layout.WritesFields EnemySpawn.fields := fun _ => rfl

theorem SpriteSpawn.writesFields : SpriteSpawn.layout.WritesFields SpriteSpawn.fields :=
  fun _ => rfl

theorem Position.writesFields : Position.layout.WritesFields Position.fields := fun _ => rfl

end RoomScript
