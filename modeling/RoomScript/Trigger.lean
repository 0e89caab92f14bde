import RoomScript.Layout

/-!
# Trigger records

A trigger is a footprint on the floor with a kind and a payload: a plain area, a door or an item. Its
footprint is an axis-aligned rectangle or, for the four-point instructions, any quadrilateral, so the
three trigger records take the footprint's type as a parameter. Each record has its byte layout
beside it; the fields lie in declaration order right behind the opcode byte.
-/
namespace RoomScript

/-- A point on the floor plane. -/
structure Point where
  x : Int16
  z : Int16
  deriving DecidableEq

/-- Axis-aligned footprint. -/
structure Rect where
  x : Int16
  z : Int16
  width : UInt16
  depth : UInt16
  deriving DecidableEq

/-- Footprint with four free corners. -/
structure Quad where
  corners : Vector Point 4
  deriving DecidableEq

/-- What every trigger carries in front of its footprint. -/
structure TriggerHeader where
  /-- Trigger slot. -/
  aot : UInt8
  /-- Trigger kind: door, item, message and so on. -/
  sce : UInt8
  /-- Activation flags. -/
  sat : UInt8
  floor : UInt8
  superId : UInt8
  deriving DecidableEq

/-- A generic trigger area with six bytes of payload. -/
structure AreaTrigger (shape : Type) where
  header : TriggerHeader
  shape : shape
  data : Vector UInt8 6
  deriving DecidableEq

/-- Where a door leads and how it opens. -/
structure DoorDestination where
  x : Int16
  y : Int16
  z : Int16
  dir : Int16
  stage : UInt8
  room : UInt8
  camera : UInt8
  floor : UInt8
  textureType : UInt8
  doorType : UInt8
  knock : UInt8
  keyId : UInt8
  keyType : UInt8
  free : UInt8
  deriving DecidableEq

structure DoorTrigger (shape : Type) where
  header : TriggerHeader
  shape : shape
  destination : DoorDestination
  deriving DecidableEq

/-- What an item trigger hands to the player. -/
structure ItemPlacement where
  itemId : UInt16
  amount : UInt16
  /-- The flag that records whether the item was picked up. -/
  pickupFlag : UInt16
  modelId : UInt8
  action : UInt8
  deriving DecidableEq

structure ItemTrigger (shape : Type) where
  header : TriggerHeader
  shape : shape
  item : ItemPlacement
  deriving DecidableEq

/-- Gives an existing trigger a new kind and payload. -/
structure TriggerReset where
  aot : UInt8
  sce : UInt8
  sat : UInt8
  data : Vector UInt8 6
  deriving DecidableEq

open Layout

def Point.layout : Layout Point :=
  (int.pair int).iso (fun (x, z) => ⟨x, z⟩) (fun p => (p.x, p.z))

def Rect.layout : Layout Rect :=
  (int.pair <| int.pair <| word.pair word).iso
    (fun (x, z, width, depth) => ⟨x, z, width, depth⟩)
    (fun r => (r.x, r.z, r.width, r.depth))

def Quad.layout : Layout Quad := (Point.layout.repeated 4).iso (⟨·⟩) (·.corners)

def TriggerHeader.layout : Layout TriggerHeader :=
  (byte.pair <| byte.pair <| byte.pair <| byte.pair byte).iso
    (fun (aot, sce, sat, floor, superId) => ⟨aot, sce, sat, floor, superId⟩)
    (fun h => (h.aot, h.sce, h.sat, h.floor, h.superId))

def DoorDestination.layout : Layout DoorDestination :=
  (int.pair <| int.pair <| int.pair <| int.pair <| byte.pair <| byte.pair <| byte.pair <|
      byte.pair <| byte.pair <| byte.pair <| byte.pair <| byte.pair <| byte.pair byte).iso
    (fun (x, y, z, dir, stage, room, camera, floor, textureType, doorType, knock, keyId, keyType,
        free) =>
      ⟨x, y, z, dir, stage, room, camera, floor, textureType, doorType, knock, keyId, keyType,
        free⟩)
    (fun d => (d.x, d.y, d.z, d.dir, d.stage, d.room, d.camera, d.floor, d.textureType, d.doorType,
      d.knock, d.keyId, d.keyType, d.free))

def ItemPlacement.layout : Layout ItemPlacement :=
  (word.pair <| word.pair <| word.pair <| byte.pair byte).iso
    (fun (itemId, amount, pickupFlag, modelId, action) =>
      ⟨itemId, amount, pickupFlag, modelId, action⟩)
    (fun i => (i.itemId, i.amount, i.pickupFlag, i.modelId, i.action))

variable {S : Type}

def AreaTrigger.layout (shape : Layout S) : Layout (AreaTrigger S) :=
  (TriggerHeader.layout.pair <| shape.pair <| byte.repeated 6).iso
    (fun (header, shape, data) => ⟨header, shape, data⟩)
    (fun t => (t.header, t.shape, t.data))

def DoorTrigger.layout (shape : Layout S) : Layout (DoorTrigger S) :=
  (TriggerHeader.layout.pair <| shape.pair DoorDestination.layout).iso
    (fun (header, shape, destination) => ⟨header, shape, destination⟩)
    (fun t => (t.header, t.shape, t.destination))

def ItemTrigger.layout (shape : Layout S) : Layout (ItemTrigger S) :=
  (TriggerHeader.layout.pair <| shape.pair ItemPlacement.layout).iso
    (fun (header, shape, item) => ⟨header, shape, item⟩)
    (fun t => (t.header, t.shape, t.item))

def TriggerReset.layout : Layout TriggerReset :=
  (byte.pair <| byte.pair <| byte.pair <| byte.repeated 6).iso
    (fun (aot, sce, sat, data) => ⟨aot, sce, sat, data⟩)
    (fun r => (r.aot, r.sce, r.sat, r.data))

theorem Point.lawful_layout : Point.layout.Lawful :=
  (lawful_int.pair lawful_int).iso (fun _ => rfl) (fun _ => rfl)

theorem Rect.lawful_layout : Rect.layout.Lawful :=
  (lawful_int.pair <| lawful_int.pair <| lawful_word.pair lawful_word).iso
    (fun _ => rfl) (fun _ => rfl)

theorem Quad.lawful_layout : Quad.layout.Lawful :=
  (Point.lawful_layout.repeated 4).iso (fun _ => rfl) (fun _ => rfl)

theorem TriggerHeader.lawful_layout : TriggerHeader.layout.Lawful :=
  (lawful_byte.pair <| lawful_byte.pair <| lawful_byte.pair <| lawful_byte.pair lawful_byte).iso
    (fun _ => rfl) (fun _ => rfl)

theorem DoorDestination.lawful_layout : DoorDestination.layout.Lawful :=
  (lawful_int.pair <| lawful_int.pair <| lawful_int.pair <| lawful_int.pair <|
    lawful_byte.pair <| lawful_byte.pair <| lawful_byte.pair <| lawful_byte.pair <|
    lawful_byte.pair <| lawful_byte.pair <| lawful_byte.pair <| lawful_byte.pair <|
    lawful_byte.pair lawful_byte).iso (fun _ => rfl) (fun _ => rfl)

theorem ItemPlacement.lawful_layout : ItemPlacement.layout.Lawful :=
  (lawful_word.pair <| lawful_word.pair <| lawful_word.pair <| lawful_byte.pair lawful_byte).iso
    (fun _ => rfl) (fun _ => rfl)

theorem AreaTrigger.lawful_layout {shape : Layout S} (h : shape.Lawful) :
    (AreaTrigger.layout shape).Lawful :=
  (TriggerHeader.lawful_layout.pair <| h.pair <| lawful_byte.repeated 6).iso
    (fun _ => rfl) (fun _ => rfl)

theorem DoorTrigger.lawful_layout {shape : Layout S} (h : shape.Lawful) :
    (DoorTrigger.layout shape).Lawful :=
  (TriggerHeader.lawful_layout.pair <| h.pair DoorDestination.lawful_layout).iso
    (fun _ => rfl) (fun _ => rfl)

theorem ItemTrigger.lawful_layout {shape : Layout S} (h : shape.Lawful) :
    (ItemTrigger.layout shape).Lawful :=
  (TriggerHeader.lawful_layout.pair <| h.pair ItemPlacement.lawful_layout).iso
    (fun _ => rfl) (fun _ => rfl)

theorem TriggerReset.lawful_layout : TriggerReset.layout.Lawful :=
  (lawful_byte.pair <| lawful_byte.pair <| lawful_byte.pair <| lawful_byte.repeated 6).iso
    (fun _ => rfl) (fun _ => rfl)

end RoomScript
