import RoomScript.Proofs.Dispatch.Loop
import RoomScript.Proofs.Record.Fields
import RoomScript.Proofs.Structured.Code

/-!
# Records in instructions

Ten opcodes carry a record to the world. Each record fills its instruction up to a few bytes without meaning:
one byte in front of it for sprites, enemies and positions, and two behind it for sprites. So the instruction
written for a record reads back as the record and calls the world with it, whatever the bytes without meaning
are; every instruction of such an opcode is wide enough for its record, and two of them carry the same record
exactly when they agree on all other bytes.
-/
namespace RoomScript

/-- The kinds of instructions that carry a record. -/
inductive RecordKind where
  | area | areaQuad | areaReset | door | doorQuad | item | itemQuad | sprite | enemy | position
  deriving DecidableEq

namespace RecordKind

/-- The records of a kind. -/
def Record : RecordKind → Type
  | area => AreaTrigger Rect
  | areaQuad => AreaTrigger Quad
  | areaReset => TriggerReset
  | door => DoorTrigger Rect
  | doorQuad => DoorTrigger Quad
  | item => ItemTrigger Rect
  | itemQuad => ItemTrigger Quad
  | sprite => SpriteSpawn
  | enemy => EnemySpawn
  | position => Position

def opcode : RecordKind → Opcode
  | area => .aotSet
  | areaQuad => .aotSet4p
  | areaReset => .aotReset
  | door => .doorAotSe
  | doorQuad => .doorAotSet4p
  | item => .itemAotSet
  | itemQuad => .itemAotSet4p
  | sprite => .sceEsprOn
  | enemy => .sceEmSet
  | position => .posSet

/-- How many bytes without meaning lie between the opcode byte and the record. -/
def lead : RecordKind → Nat
  | sprite | enemy | position => 1
  | _ => 0

/-- How many bytes without meaning lie behind the record. -/
def trail : RecordKind → Nat
  | sprite => 2
  | _ => 0

def layout : (k : RecordKind) → Layout k.Record
  | area => AreaTrigger.layout Rect.layout
  | areaQuad => AreaTrigger.layout Quad.layout
  | areaReset => TriggerReset.layout
  | door => DoorTrigger.layout Rect.layout
  | doorQuad => DoorTrigger.layout Quad.layout
  | item => ItemTrigger.layout Rect.layout
  | itemQuad => ItemTrigger.layout Quad.layout
  | sprite => SpriteSpawn.layout
  | enemy => EnemySpawn.layout
  | position => Position.layout

/-- The fields of a record in the order of their declaration. -/
def fields : (k : RecordKind) → k.Record → List Field
  | area => AreaTrigger.fields Rect.fields
  | areaQuad => AreaTrigger.fields Quad.fields
  | areaReset => TriggerReset.fields
  | door => DoorTrigger.fields Rect.fields
  | doorQuad => DoorTrigger.fields Quad.fields
  | item => ItemTrigger.fields Rect.fields
  | itemQuad => ItemTrigger.fields Quad.fields
  | sprite => SpriteSpawn.fields
  | enemy => EnemySpawn.fields
  | position => Position.fields

/-- The call that carries a record. -/
def call : (k : RecordKind) → k.Record → WorldCall
  | area => .area
  | areaQuad => .areaQuad
  | areaReset => .areaReset
  | door => .door
  | doorQuad => .doorQuad
  | item => .item
  | itemQuad => .itemQuad
  | sprite => .sprite
  | enemy => .enemy
  | position => .playerPosition

/-- The world hears of a position only when the thread works on the player. -/
def Heard (k : RecordKind) (work : WorkTarget) : Prop := k = position → work.kind = .player

instance (k : RecordKind) (work : WorkTarget) : Decidable (k.Heard work) :=
  inferInstanceAs (Decidable (_ → _))

/-- The bytes of an instruction that have no meaning. -/
def Pads (k : RecordKind) (offset : Nat) : Prop :=
  0 < offset ∧ offset ≤ k.lead ∨ k.opcode.width ≤ offset + k.trail

/-- The record that an instruction carries, if the instruction is wide enough for it. -/
def decode? (k : RecordKind) (i : Instruction) : Option k.Record := i.record? (1 + k.lead) k.layout

/-- An instruction that carries a record, with any bytes in the places without meaning. -/
def encode (k : RecordKind) (lead : Vector UInt8 k.lead) (r : k.Record)
    (trail : Vector UInt8 k.trail) : List UInt8 :=
  k.opcode.byte :: (lead.toList ++ Field.encode (k.fields r) ++ trail.toList)

variable {k : RecordKind} {i j : Instruction}

theorem lawful_layout (k : RecordKind) : k.layout.Lawful := by
  cases k with
  | area => exact AreaTrigger.lawful_layout Rect.lawful_layout
  | areaQuad => exact AreaTrigger.lawful_layout Quad.lawful_layout
  | areaReset => exact TriggerReset.lawful_layout
  | door => exact DoorTrigger.lawful_layout Rect.lawful_layout
  | doorQuad => exact DoorTrigger.lawful_layout Quad.lawful_layout
  | item => exact ItemTrigger.lawful_layout Rect.lawful_layout
  | itemQuad => exact ItemTrigger.lawful_layout Quad.lawful_layout
  | sprite => exact SpriteSpawn.lawful_layout
  | enemy => exact EnemySpawn.lawful_layout
  | position => exact Position.lawful_layout

theorem writesFields (k : RecordKind) : k.layout.WritesFields k.fields := by
  cases k with
  | area => exact AreaTrigger.writesFields Rect.writesFields
  | areaQuad => exact AreaTrigger.writesFields Quad.writesFields
  | areaReset => exact TriggerReset.writesFields
  | door => exact DoorTrigger.writesFields Rect.writesFields
  | doorQuad => exact DoorTrigger.writesFields Quad.writesFields
  | item => exact ItemTrigger.writesFields Rect.writesFields
  | itemQuad => exact ItemTrigger.writesFields Quad.writesFields
  | sprite => exact SpriteSpawn.writesFields
  | enemy => exact EnemySpawn.writesFields
  | position => exact Position.writesFields

/-- The record and the bytes without meaning fill the instruction. -/
theorem width_opcode (k : RecordKind) : 1 + k.lead + k.layout.width + k.trail = k.opcode.width := by
  cases k <;> rfl

/-- Which call an instruction makes, by the kind of its record. -/
theorem ofInstruction?_eq (h : i.opcode = k.opcode) (work : WorkTarget) :
    WorldCall.ofInstruction? work i =
      if k.Heard work then (k.decode? i).map k.call else none := by
  by_cases hk : k = position
  · subst hk
    simp only [opcode] at h
    simp only [WorldCall.ofInstruction?, h, Heard, true_implies]
    rfl
  · have hheard : k.Heard work := fun h => absurd h hk
    rw [if_pos hheard]
    cases k with
    | position => exact absurd rfl hk
    | _ =>
        simp only [opcode] at h
        simp only [WorldCall.ofInstruction?, h]
        rfl

theorem command_eq (h : i.opcode = k.opcode) : Command.ofInstruction i = .world i := by
  cases k <;> simp only [opcode] at h <;> simp only [Command.ofInstruction, h]

/-- An instruction of a record's opcode is wide enough for the record. -/
theorem layout_width_le (h : i.opcode = k.opcode) :
    k.layout.width ≤ (i.bytes.drop (1 + k.lead)).length := by
  have hw : i.width = k.opcode.width := congrArg Opcode.width h
  have hk := k.width_opcode
  rw [List.length_drop, i.length_bytes]
  omega

theorem exists_decode? (h : i.opcode = k.opcode) : ∃ r, k.decode? i = some r :=
  Option.isSome_iff_exists.mp (k.lawful_layout.read?_isSome_iff.mpr (layout_width_le h))

/-- Two instructions of one opcode carry the same record exactly when they agree on the bytes of the
record. -/
theorem decode?_eq_iff (hi : i.opcode = k.opcode) (hj : j.opcode = k.opcode) :
    k.decode? i = k.decode? j ↔
      ∀ n < k.layout.width, i.byte? (1 + k.lead + n) = j.byte? (1 + k.lead + n) := by
  rw [decode?, decode?, Instruction.record?, Instruction.record?,
    k.lawful_layout.read?_eq_iff (layout_width_le hi) (layout_width_le hj)]
  constructor
  · intro heq n hn
    have hget := congrArg (·[n]?) heq
    simpa only [List.getElem?_take, hn, if_true, List.getElem?_drop, Instruction.byte?] using hget
  · intro heq
    apply List.ext_getElem?
    intro n
    by_cases hn : n < k.layout.width
    · simpa only [List.getElem?_take, hn, if_true, List.getElem?_drop, Instruction.byte?] using
        heq n hn
    · simp only [List.getElem?_take, hn, if_false]

/-- The bytes of the record are those with a meaning, but for the opcode byte. -/
theorem agree_iff (hi : i.opcode = k.opcode) (hj : j.opcode = k.opcode) :
    (∀ n < k.layout.width, i.byte? (1 + k.lead + n) = j.byte? (1 + k.lead + n)) ↔
      ∀ offset < k.opcode.width, ¬k.Pads offset → i.byte? offset = j.byte? offset := by
  have hk := k.width_opcode
  constructor
  · intro heq offset ho hpad
    rcases Nat.eq_zero_or_pos offset with rfl | hpos
    · simp only [Instruction.byte?, Instruction.bytes, hi, hj, List.getElem?_cons_zero]
    · have hoffset : 1 + k.lead + (offset - (1 + k.lead)) = offset := by
        unfold Pads at hpad
        omega
      have hn : offset - (1 + k.lead) < k.layout.width := by
        unfold Pads at hpad
        omega
      exact hoffset ▸ heq _ hn
  · intro heq n hn
    apply heq
    · omega
    · unfold Pads
      omega

section Encode

variable (lead : Vector UInt8 k.lead) (r : k.Record) (trail : Vector UInt8 k.trail)

theorem length_fields (r : k.Record) : (Field.encode (k.fields r)).length = k.layout.width := by
  rw [← k.writesFields r, k.lawful_layout.length_write]

theorem length_encode : (k.encode lead r trail).length = k.opcode.width := by
  have hk := k.width_opcode
  simp only [encode, List.length_cons, List.length_append, Vector.length_toList, length_fields]
  omega

/-- The instruction that is written for a record. -/
def instruction : Instruction where
  opcode := k.opcode
  operands := lead.toList ++ Field.encode (k.fields r) ++ trail.toList
  length_operands := length_encode lead r trail

theorem bytes_instruction : (instruction lead r trail).bytes = k.encode lead r trail := rfl

theorem decode?_instruction : k.decode? (instruction lead r trail) = some r := by
  have hdrop : (k.encode lead r trail).drop (1 + k.lead) =
      k.layout.write r ++ trail.toList := by
    rw [encode, Nat.add_comm, List.drop_succ_cons, List.append_assoc,
      List.drop_left' lead.length_toList, k.writesFields r]
  rw [decode?, Instruction.record?, bytes_instruction, hdrop, k.lawful_layout.read?_write]

end Encode

/-- An instruction that carries a record makes one call with it; only a position stays unheard unless the
thread works on the player. -/
theorem step_instruction {p : Program} {slot : Slot} {m : Machine} {r : k.Record}
    (hi : i.opcode = k.opcode) (hr : k.decode? i = some r)
    (h : p.instructionAt m.thread.pc = .ok i) :
    m.step p slot = .running { m with
      thread := { m.thread with pc := m.thread.pc + i.width }
      calls := if k.Heard m.thread.work then m.calls.push (k.call r) else m.calls } := by
  rw [Machine.step_world h (command_eq hi), ofInstruction?_eq hi, hr]
  split <;> rfl

/-- Records and instructions. Behind the opcode byte and around the bytes without meaning, the fields of a
record fill an instruction of the kind's opcode. Wherever the code has these bytes, the instruction is read,
the record is read from it, and the step over it makes one call with the record, or none for a position of
another object than the player; of the thread it changes the position alone. Every instruction of the opcode
carries a record, and two of them carry the same one exactly when they agree on all bytes with a meaning. -/
theorem records_round_trip (k : RecordKind) :
    (∀ (lead : Vector UInt8 k.lead) (r : k.Record) (trail : Vector UInt8 k.trail),
      (k.encode lead r trail).length = k.opcode.width ∧
      ∃ i : Instruction, i.opcode = k.opcode ∧ i.bytes = k.encode lead r trail ∧
        k.decode? i = some r ∧
        (∀ (p : Program) (position : Nat), p.Has position (k.encode lead r trail) →
          p.instructionAt position = .ok i) ∧
        ∀ (p : Program) (slot : Slot) (m : Machine), p.Has m.thread.pc (k.encode lead r trail) →
          m.step p slot = .running { m with
            thread := { m.thread with pc := m.thread.pc + k.opcode.width }
            calls := if k.Heard m.thread.work then m.calls.push (k.call r) else m.calls }) ∧
    ∀ i : Instruction, i.opcode = k.opcode →
      (∃ r, k.decode? i = some r) ∧
      ∀ j : Instruction, j.opcode = k.opcode →
        (k.decode? i = k.decode? j ↔
          ∀ offset < k.opcode.width, ¬k.Pads offset → i.byte? offset = j.byte? offset) := by
  constructor
  · intro lead r trail
    refine ⟨length_encode lead r trail, instruction lead r trail, rfl, rfl,
      decode?_instruction lead r trail, fun p position h => ?_, fun p slot m h => ?_⟩
    · exact Program.instructionAt_of_has h
    · exact step_instruction rfl (decode?_instruction lead r trail) (Program.instructionAt_of_has h)
  · intro i hi
    refine ⟨exists_decode? hi, fun j hj => ?_⟩
    rw [decode?_eq_iff hi hj, agree_iff hi hj]

/-- A sprite, with two choices of its three bytes without meaning. -/
theorem records_round_trip_sprite :
    let r : SpriteSpawn := ⟨3, 1, 0x0102, -5, 6, 7, 512⟩
    let code : List UInt8 := [0x3a, 0xee, 3, 1, 2, 1, 0xfb, 0xff, 6, 0, 7, 0, 0, 2, 0xaa, 0xbb]
    let i := instruction (k := .sprite) #v[0xee] r #v[0xaa, 0xbb]
    let j := instruction (k := .sprite) #v[0] r #v[0, 0]
    let p : Program := { code := code.toArray }
    let m : Machine := { thread := Thread.start 0 0, pool := Pool.vacant, store := {} }
    p.Has 0 code ∧
      m.step p 0 = .running { m with
        thread := { m.thread with pc := 16 }
        calls := #[.sprite r] } ∧
      i.opcode = .sceEsprOn ∧ j.opcode = .sceEsprOn ∧
      sprite.decode? i = sprite.decode? j := by
  have hhas : ({ code := #[0x3a, 0xee, 3, 1, 2, 1, 0xfb, 0xff, 6, 0, 7, 0, 0, 2, 0xaa, 0xbb] } :
      Program).Has 0 (encode (k := .sprite) #v[0xee] ⟨3, 1, 0x0102, -5, 6, 7, 512⟩ #v[0xaa, 0xbb]) := by
    unfold Program.Has
    decide
  obtain ⟨-, _, -, -, -, -, hstep⟩ :=
    (records_round_trip .sprite).1 #v[0xee] ⟨3, 1, 0x0102, -5, 6, 7, 512⟩ #v[0xaa, 0xbb]
  refine ⟨hhas, hstep _ 0 _ hhas, rfl, rfl, ?_⟩
  apply (((records_round_trip .sprite).2 _ rfl).2 _ rfl).mpr
  unfold Pads
  decide

end RecordKind

end RoomScript
