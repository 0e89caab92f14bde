import RoomScript.Instruction
import RoomScript.Trigger
import RoomScript.Thread

/-!
# The world

Some instructions ask the world around the script to do something: to switch cameras, to place a
trigger, an enemy or a sprite. Each makes at most one call, which carries the record laid out in the
instruction. None of them moves the thread. In the instructions for enemies, sprites and positions one
byte without meaning follows the opcode and the record lies behind it; a sprite leaves the last two
bytes of its instruction unused as well.
-/
namespace RoomScript

/-- Places an enemy. -/
structure EnemySpawn where
  aot : UInt8
  model : UInt8
  pose : UInt8
  behavior : UInt8
  floor : UInt8
  soundBank : UInt8
  texture : UInt8
  /-- The flag that marks the enemy as dead. -/
  killId : UInt8
  x : Int16
  y : Int16
  z : Int16
  dir : Int16
  motion : UInt16
  controlFlags : UInt16
  deriving DecidableEq

/-- Starts a sprite effect. -/
structure SpriteSpawn where
  id : UInt8
  kind : UInt8
  flags : UInt16
  x : Int16
  y : Int16
  z : Int16
  dir : Int16
  deriving DecidableEq

/-- A point in the room. -/
structure Position where
  x : Int16
  y : Int16
  z : Int16
  deriving DecidableEq

section

open Layout

def EnemySpawn.layout : Layout EnemySpawn :=
  (byte.pair <| byte.pair <| byte.pair <| byte.pair <| byte.pair <| byte.pair <| byte.pair <|
      byte.pair <| int.pair <| int.pair <| int.pair <| int.pair <| word.pair word).iso
    (fun (aot, model, pose, behavior, floor, soundBank, texture, killId, x, y, z, dir, motion,
        controlFlags) =>
      ⟨aot, model, pose, behavior, floor, soundBank, texture, killId, x, y, z, dir, motion,
        controlFlags⟩)
    (fun e => (e.aot, e.model, e.pose, e.behavior, e.floor, e.soundBank, e.texture, e.killId, e.x,
      e.y, e.z, e.dir, e.motion, e.controlFlags))

def SpriteSpawn.layout : Layout SpriteSpawn :=
  (byte.pair <| byte.pair <| word.pair <| int.pair <| int.pair <| int.pair int).iso
    (fun (id, kind, flags, x, y, z, dir) => ⟨id, kind, flags, x, y, z, dir⟩)
    (fun s => (s.id, s.kind, s.flags, s.x, s.y, s.z, s.dir))

def Position.layout : Layout Position :=
  (int.pair <| int.pair int).iso (fun (x, y, z) => ⟨x, y, z⟩) (fun p => (p.x, p.y, p.z))

theorem EnemySpawn.lawful_layout : EnemySpawn.layout.Lawful :=
  (lawful_byte.pair <| lawful_byte.pair <| lawful_byte.pair <| lawful_byte.pair <|
    lawful_byte.pair <| lawful_byte.pair <| lawful_byte.pair <| lawful_byte.pair <|
    lawful_int.pair <| lawful_int.pair <| lawful_int.pair <| lawful_int.pair <|
    lawful_word.pair lawful_word).iso (fun _ => rfl) (fun _ => rfl)

theorem SpriteSpawn.lawful_layout : SpriteSpawn.layout.Lawful :=
  (lawful_byte.pair <| lawful_byte.pair <| lawful_word.pair <| lawful_int.pair <|
    lawful_int.pair <| lawful_int.pair lawful_int).iso (fun _ => rfl) (fun _ => rfl)

theorem Position.lawful_layout : Position.layout.Lawful :=
  (lawful_int.pair <| lawful_int.pair lawful_int).iso (fun _ => rfl) (fun _ => rfl)

end

/-- A request to the world. -/
inductive WorldCall where
  | camera (id : UInt8)
  | area (trigger : AreaTrigger Rect)
  | areaQuad (trigger : AreaTrigger Quad)
  | areaReset (reset : TriggerReset)
  | door (trigger : DoorTrigger Rect)
  | doorQuad (trigger : DoorTrigger Quad)
  | item (trigger : ItemTrigger Rect)
  | itemQuad (trigger : ItemTrigger Quad)
  | sprite (sprite : SpriteSpawn)
  | enemy (enemy : EnemySpawn)
  | playerPosition (position : Position)
  | removeCollision (id : UInt8)
  deriving DecidableEq

/-- The record that starts at an offset from the opcode byte, if the instruction is wide enough for
it. -/
def Instruction.record? {α : Type} (i : Instruction) (offset : Nat) (layout : Layout α) : Option α :=
  layout.read? (i.bytes.drop offset)

theorem Instruction.record?_isSome_iff {α : Type} {i : Instruction} {offset : Nat}
    {layout : Layout α} (h : layout.Lawful) (hw : 0 < layout.width) :
    (i.record? offset layout).isSome ↔ offset + layout.width ≤ i.width := by
  rw [record?, h.read?_isSome_iff, List.length_drop, i.length_bytes]
  omega

/-- The call that an instruction makes for a thread that works on the given object. Only the player
has a position that the world knows, and only the lowest bit of its flags makes a collision
instruction remove anything. -/
def WorldCall.ofInstruction? (work : WorkTarget) (i : Instruction) : Option WorldCall :=
  match i.opcode with
  | .cutChg => (i.byte? 1).map .camera
  | .aotSet => (i.record? 1 (AreaTrigger.layout Rect.layout)).map .area
  | .aotSet4p => (i.record? 1 (AreaTrigger.layout Quad.layout)).map .areaQuad
  | .aotReset => (i.record? 1 TriggerReset.layout).map .areaReset
  | .doorAotSe => (i.record? 1 (DoorTrigger.layout Rect.layout)).map .door
  | .doorAotSet4p => (i.record? 1 (DoorTrigger.layout Quad.layout)).map .doorQuad
  | .itemAotSet => (i.record? 1 (ItemTrigger.layout Rect.layout)).map .item
  | .itemAotSet4p => (i.record? 1 (ItemTrigger.layout Quad.layout)).map .itemQuad
  | .sceEsprOn => (i.record? 2 SpriteSpawn.layout).map .sprite
  | .sceEmSet => (i.record? 2 EnemySpawn.layout).map .enemy
  | .posSet =>
    if work.kind = .player then (i.record? 2 Position.layout).map .playerPosition else none
  | .colChgSet =>
    if i.byte 2 &&& 1 = 0 then none else (i.byte? 1).map .removeCollision
  | _ => none

end RoomScript
