/-!
# Opcodes

The opcode byte alone fixes how many bytes an instruction occupies, so this table is what lets a
reader of script code step from one instruction to the next without knowing any parameter. Opcodes
are numbered from zero without a gap, in the order of the type below.
-/
namespace RoomScript

/-- The operation an instruction performs. -/
inductive Opcode where
  | nop
  /-- Ends the event, or returns from a subroutine. -/
  | evtEnd
  | evtNext
  | evtChain
  /-- Starts an event on a thread slot; `0xff` asks for the first dead slot. -/
  | evtExec
  | evtKill
  /-- Opens a conditional block; its length is the word at 2. -/
  | ifelCk
  /-- Ends an if-body and skips the else-body, whose length is the word at 2. -/
  | elseCk
  | endif
  /-- Arms a countdown of ticks, the word at 2. -/
  | sleep
  /-- Waits until the countdown is spent. -/
  | sleeping
  | wsleep
  | wsleeping
  /-- Counted loop: block length at 2, count at 4. -/
  | forLoop
  /-- Ends the body of a counted loop. -/
  | next
  | whileLoop
  | ewhile
  | doLoop
  | edwhile
  /-- Branches on the variable at 1; block length at 2. -/
  | switch
  /-- One case of a switch: body length at 2, value at 4. -/
  | case
  | default
  | eswitch
  /-- A jump that the interpreter never takes. -/
  | goto
  /-- Calls the event at 1 as a subroutine. -/
  | gosub
  | ret
  | breakOut
  | for2
  | breakPoint
  | workCopy
  | nop1e
  | nop1f
  | nop20
  /-- Tests a flag: array at 1, bit at 2, expected value at 3. -/
  | ck
  /-- Changes a flag: array at 1, bit at 2, operation at 3. -/
  | set
  /-- Compares the variable at 2 by the operator at 3 with the value at 4. -/
  | cmp
  | save
  | copy
  | calculate
  | calculate2
  | sceRnd
  /-- Switches to the camera at 1. -/
  | cutChg
  | cutOld
  | messageOn
  | aotSet
  | objModelSet
  /-- Selects the object that later instructions act upon: kind at 1, index at 2. -/
  | workSet
  | speedSet
  | addSpeed
  | addAspeed
  | posSet
  | dirSet
  | memberSet
  | memberSet2
  | seOn
  | scaIdSet
  | flrSet
  | dirCk
  | sceEsprOn
  | doorAotSe
  | cutAuto
  | memberCopy
  | memberCmp
  | plcMotion
  | plcDest
  | plcNeck
  | plcRet
  | plcFlg
  | sceEmSet
  | colChgSet
  | aotReset
  | aotOn
  | superSet
  | superReset
  | plcGun
  | cutReplace
  | sceEsprKill
  | doorModelSet
  | itemAotSet
  | sceKeyCk
  | sceTrgCk
  | sceBgmControl
  | sceEsprControl
  | sceFadeSet
  | sceEspr3dOn
  | memberCalc
  | memberCalc2
  | sceBgmtblSet
  | plcRot
  | xaOn
  | weaponChg
  | plcCnt
  | sceShakeOn
  | mizuDivSet
  | keepItemCk
  | xaVol
  | kageSet
  | cutBeSet
  | sceItemLost
  | plcGunEff
  | sceEsprOn2
  | sceEsprKill2
  | plcStop
  | aotSet4p
  | doorAotSet4p
  | itemAotSet4p
  | lightPosSet
  | lightKidoSet
  | rbjReset
  | sceScrMove
  | partsSet
  | movieOn
  | splcRet
  | splcSce
  | superOn
  | mirrorSet
  | sceFadeAdjust
  | sceEspr3dOn2
  | sceItemGet
  | sceLineStart
  | sceLineMain
  | sceLineEnd
  | scePartsBomb
  | scePartsDown
  | lightColorSet
  | lightPosSet2
  | lightKidoSet2
  | lightColorSet2
  | seVol
  | sceItemCmp
  | sceEsprTask
  | plcHeal
  | stMapHint
  | sceEmPosCk
  | poisonCk
  | poisonClr
  | sceItemLost2
  | evtNext2
  | vloopSet
  | vloopSet2
  deriving DecidableEq

namespace Opcode

/-- What the table says of an opcode: the width of its instruction in bytes, the opcode byte
included, and its mnemonic. -/
structure Entry where
  width : Nat
  mnemonic : String

/-- The opcode table. -/
def entry : Opcode → Entry
  | .nop => ⟨1, "NOP"⟩
  | .evtEnd => ⟨2, "EVT_END"⟩
  | .evtNext => ⟨1, "EVT_NEXT"⟩
  | .evtChain => ⟨4, "EVT_CHAIN"⟩
  | .evtExec => ⟨4, "EVT_EXEC"⟩
  | .evtKill => ⟨2, "EVT_KILL"⟩
  | .ifelCk => ⟨4, "IFEL_CK"⟩
  | .elseCk => ⟨4, "ELSE_CK"⟩
  | .endif => ⟨2, "ENDIF"⟩
  | .sleep => ⟨4, "SLEEP"⟩
  | .sleeping => ⟨3, "SLEEPING"⟩
  | .wsleep => ⟨1, "WSLEEP"⟩
  | .wsleeping => ⟨1, "WSLEEPING"⟩
  | .forLoop => ⟨6, "FOR"⟩
  | .next => ⟨2, "NEXT"⟩
  | .whileLoop => ⟨4, "WHILE"⟩
  | .ewhile => ⟨2, "EWHILE"⟩
  | .doLoop => ⟨4, "DO"⟩
  | .edwhile => ⟨2, "EDWHILE"⟩
  | .switch => ⟨4, "SWITCH"⟩
  | .case => ⟨6, "CASE"⟩
  | .default => ⟨2, "DEFAULT"⟩
  | .eswitch => ⟨2, "ESWITCH"⟩
  | .goto => ⟨6, "GOTO"⟩
  | .gosub => ⟨2, "GOSUB"⟩
  | .ret => ⟨2, "RETURN"⟩
  | .breakOut => ⟨2, "BREAK"⟩
  | .for2 => ⟨6, "FOR2"⟩
  | .breakPoint => ⟨1, "BREAK_POINT"⟩
  | .workCopy => ⟨4, "WORK_COPY"⟩
  | .nop1e => ⟨1, "NOP_1E"⟩
  | .nop1f => ⟨1, "NOP_1F"⟩
  | .nop20 => ⟨1, "NOP_20"⟩
  | .ck => ⟨4, "CK"⟩
  | .set => ⟨4, "SET"⟩
  | .cmp => ⟨6, "CMP"⟩
  | .save => ⟨4, "SAVE"⟩
  | .copy => ⟨3, "COPY"⟩
  | .calculate => ⟨6, "CALC"⟩
  | .calculate2 => ⟨4, "CALC2"⟩
  | .sceRnd => ⟨1, "SCE_RND"⟩
  | .cutChg => ⟨2, "CUT_CHG"⟩
  | .cutOld => ⟨1, "CUT_OLD"⟩
  | .messageOn => ⟨6, "MESSAGE_ON"⟩
  | .aotSet => ⟨20, "AOT_SET"⟩
  | .objModelSet => ⟨38, "OBJ_MODEL_SET"⟩
  | .workSet => ⟨3, "WORK_SET"⟩
  | .speedSet => ⟨4, "SPEED_SET"⟩
  | .addSpeed => ⟨1, "ADD_SPEED"⟩
  | .addAspeed => ⟨1, "ADD_ASPEED"⟩
  | .posSet => ⟨8, "POS_SET"⟩
  | .dirSet => ⟨8, "DIR_SET"⟩
  | .memberSet => ⟨4, "MEMBER_SET"⟩
  | .memberSet2 => ⟨3, "MEMBER_SET2"⟩
  | .seOn => ⟨12, "SE_ON"⟩
  | .scaIdSet => ⟨4, "SCA_ID_SET"⟩
  | .flrSet => ⟨3, "FLR_SET"⟩
  | .dirCk => ⟨8, "DIR_CK"⟩
  | .sceEsprOn => ⟨16, "SCE_ESPR_ON"⟩
  | .doorAotSe => ⟨32, "DOOR_AOT_SE"⟩
  | .cutAuto => ⟨2, "CUT_AUTO"⟩
  | .memberCopy => ⟨3, "MEMBER_COPY"⟩
  | .memberCmp => ⟨6, "MEMBER_CMP"⟩
  | .plcMotion => ⟨4, "PLC_MOTION"⟩
  | .plcDest => ⟨8, "PLC_DEST"⟩
  | .plcNeck => ⟨10, "PLC_NECK"⟩
  | .plcRet => ⟨1, "PLC_RET"⟩
  | .plcFlg => ⟨4, "PLC_FLG"⟩
  | .sceEmSet => ⟨22, "SCE_EM_SET"⟩
  | .colChgSet => ⟨5, "COL_CHG_SET"⟩
  | .aotReset => ⟨10, "AOT_RESET"⟩
  | .aotOn => ⟨2, "AOT_ON"⟩
  | .superSet => ⟨16, "SUPER_SET"⟩
  | .superReset => ⟨8, "SUPER_RESET"⟩
  | .plcGun => ⟨2, "PLC_GUN"⟩
  | .cutReplace => ⟨3, "CUT_REPLACE"⟩
  | .sceEsprKill => ⟨5, "SCE_ESPR_KILL"⟩
  | .doorModelSet => ⟨22, "DOOR_MODEL_SET"⟩
  | .itemAotSet => ⟨22, "ITEM_AOT_SET"⟩
  | .sceKeyCk => ⟨4, "SCE_KEY_CK"⟩
  | .sceTrgCk => ⟨4, "SCE_TRG_CK"⟩
  | .sceBgmControl => ⟨6, "SCE_BGM_CONTROL"⟩
  | .sceEsprControl => ⟨6, "SCE_ESPR_CONTROL"⟩
  | .sceFadeSet => ⟨6, "SCE_FADE_SET"⟩
  | .sceEspr3dOn => ⟨22, "SCE_ESPR3D_ON"⟩
  | .memberCalc => ⟨6, "MEMBER_CALC"⟩
  | .memberCalc2 => ⟨4, "MEMBER_CALC2"⟩
  | .sceBgmtblSet => ⟨8, "SCE_BGMTBL_SET"⟩
  | .plcRot => ⟨4, "PLC_ROT"⟩
  | .xaOn => ⟨4, "XA_ON"⟩
  | .weaponChg => ⟨2, "WEAPON_CHG"⟩
  | .plcCnt => ⟨2, "PLC_CNT"⟩
  | .sceShakeOn => ⟨3, "SCE_SHAKE_ON"⟩
  | .mizuDivSet => ⟨2, "MIZU_DIV_SET"⟩
  | .keepItemCk => ⟨2, "KEEP_ITEM_CK"⟩
  | .xaVol => ⟨2, "XA_VOL"⟩
  | .kageSet => ⟨14, "KAGE_SET"⟩
  | .cutBeSet => ⟨4, "CUT_BE_SET"⟩
  | .sceItemLost => ⟨2, "SCE_ITEM_LOST"⟩
  | .plcGunEff => ⟨1, "PLC_GUN_EFF"⟩
  | .sceEsprOn2 => ⟨16, "SCE_ESPR_ON2"⟩
  | .sceEsprKill2 => ⟨2, "SCE_ESPR_KILL2"⟩
  | .plcStop => ⟨1, "PLC_STOP"⟩
  | .aotSet4p => ⟨28, "AOT_SET_4P"⟩
  | .doorAotSet4p => ⟨40, "DOOR_AOT_SET_4P"⟩
  | .itemAotSet4p => ⟨30, "ITEM_AOT_SET_4P"⟩
  | .lightPosSet => ⟨6, "LIGHT_POS_SET"⟩
  | .lightKidoSet => ⟨4, "LIGHT_KIDO_SET"⟩
  | .rbjReset => ⟨1, "RBJ_RESET"⟩
  | .sceScrMove => ⟨4, "SCE_SCR_MOVE"⟩
  | .partsSet => ⟨6, "PARTS_SET"⟩
  | .movieOn => ⟨2, "MOVIE_ON"⟩
  | .splcRet => ⟨1, "SPLC_RET"⟩
  | .splcSce => ⟨1, "SPLC_SCE"⟩
  | .superOn => ⟨16, "SUPER_ON"⟩
  | .mirrorSet => ⟨8, "MIRROR_SET"⟩
  | .sceFadeAdjust => ⟨4, "SCE_FADE_ADJUST"⟩
  | .sceEspr3dOn2 => ⟨22, "SCE_ESPR3D_ON2"⟩
  | .sceItemGet => ⟨3, "SCE_ITEM_GET"⟩
  | .sceLineStart => ⟨4, "SCE_LINE_START"⟩
  | .sceLineMain => ⟨6, "SCE_LINE_MAIN"⟩
  | .sceLineEnd => ⟨1, "SCE_LINE_END"⟩
  | .scePartsBomb => ⟨16, "SCE_PARTS_BOMB"⟩
  | .scePartsDown => ⟨16, "SCE_PARTS_DOWN"⟩
  | .lightColorSet => ⟨6, "LIGHT_COLOR_SET"⟩
  | .lightPosSet2 => ⟨6, "LIGHT_POS_SET2"⟩
  | .lightKidoSet2 => ⟨6, "LIGHT_KIDO_SET2"⟩
  | .lightColorSet2 => ⟨6, "LIGHT_COLOR_SET2"⟩
  | .seVol => ⟨3, "SE_VOL"⟩
  | .sceItemCmp => ⟨3, "SCE_ITEM_CMP"⟩
  | .sceEsprTask => ⟨3, "SCE_ESPR_TASK"⟩
  | .plcHeal => ⟨1, "PLC_HEAL"⟩
  | .stMapHint => ⟨2, "ST_MAP_HINT"⟩
  | .sceEmPosCk => ⟨6, "SCE_EM_POS_CK"⟩
  | .poisonCk => ⟨1, "POISON_CK"⟩
  | .poisonClr => ⟨1, "POISON_CLR"⟩
  | .sceItemLost2 => ⟨3, "SCE_ITEM_LOST2"⟩
  | .evtNext2 => ⟨1, "EVT_NEXT2"⟩
  | .vloopSet => ⟨6, "VLOOP_SET"⟩
  | .vloopSet2 => ⟨6, "VLOOP_SET2"⟩

/-- Width of the encoded instruction in bytes, the opcode byte included. -/
def width (op : Opcode) : Nat := op.entry.width

def mnemonic (op : Opcode) : String := op.entry.mnemonic

/-- Every opcode, in byte order. -/
def all : Array Opcode := #[
  .nop, .evtEnd, .evtNext, .evtChain, .evtExec, .evtKill, .ifelCk, .elseCk, .endif, .sleep,
  .sleeping, .wsleep, .wsleeping, .forLoop, .next, .whileLoop, .ewhile, .doLoop, .edwhile,
  .switch, .case, .default, .eswitch, .goto, .gosub, .ret, .breakOut, .for2, .breakPoint,
  .workCopy, .nop1e, .nop1f, .nop20, .ck, .set, .cmp, .save, .copy, .calculate, .calculate2, .sceRnd,
  .cutChg, .cutOld, .messageOn, .aotSet, .objModelSet, .workSet, .speedSet, .addSpeed,
  .addAspeed, .posSet, .dirSet, .memberSet, .memberSet2, .seOn, .scaIdSet, .flrSet, .dirCk,
  .sceEsprOn, .doorAotSe, .cutAuto, .memberCopy, .memberCmp, .plcMotion, .plcDest, .plcNeck,
  .plcRet, .plcFlg, .sceEmSet, .colChgSet, .aotReset, .aotOn, .superSet, .superReset, .plcGun,
  .cutReplace, .sceEsprKill, .doorModelSet, .itemAotSet, .sceKeyCk, .sceTrgCk, .sceBgmControl,
  .sceEsprControl, .sceFadeSet, .sceEspr3dOn, .memberCalc, .memberCalc2, .sceBgmtblSet, .plcRot,
  .xaOn, .weaponChg, .plcCnt, .sceShakeOn, .mizuDivSet, .keepItemCk, .xaVol, .kageSet, .cutBeSet,
  .sceItemLost, .plcGunEff, .sceEsprOn2, .sceEsprKill2, .plcStop, .aotSet4p, .doorAotSet4p,
  .itemAotSet4p, .lightPosSet, .lightKidoSet, .rbjReset, .sceScrMove, .partsSet, .movieOn,
  .splcRet, .splcSce, .superOn, .mirrorSet, .sceFadeAdjust, .sceEspr3dOn2, .sceItemGet,
  .sceLineStart, .sceLineMain, .sceLineEnd, .scePartsBomb, .scePartsDown, .lightColorSet,
  .lightPosSet2, .lightKidoSet2, .lightColorSet2, .seVol, .sceItemCmp, .sceEsprTask, .plcHeal,
  .stMapHint, .sceEmPosCk, .poisonCk, .poisonClr, .sceItemLost2, .evtNext2, .vloopSet, .vloopSet2]

/-- The byte that encodes an opcode. -/
def byte (op : Opcode) : UInt8 := UInt8.ofNat op.ctorIdx

/-- The opcode that a byte encodes, if it encodes one. -/
def ofByte? (b : UInt8) : Option Opcode := all[b.toNat]?

set_option maxRecDepth 2000 in
theorem size_all : all.size = 140 := rfl

set_option maxRecDepth 2000 in
@[simp] theorem ofByte?_byte (op : Opcode) : ofByte? op.byte = some op := by
  cases op <;> rfl

theorem byte_of_ofByte? {b : UInt8} {op : Opcode} (h : ofByte? b = some op) : op.byte = b := by
  have table : ∀ i : Fin 140, all[i.val]?.map byte = some (UInt8.ofNat i) := by decide +kernel
  have hb : b.toNat < 140 := by
    rw [← size_all]
    exact (Array.getElem?_eq_some_iff.mp h).choose
  have row := table ⟨b.toNat, hb⟩
  rw [ofByte?] at h
  simpa [h] using row

theorem ofByte?_eq_some_iff {b : UInt8} {op : Opcode} : ofByte? b = some op ↔ op.byte = b :=
  ⟨byte_of_ofByte?, fun h => h ▸ ofByte?_byte op⟩

/-- The bytes behind the table encode nothing. -/
theorem ofByte?_eq_none_iff {b : UInt8} : ofByte? b = none ↔ 140 ≤ b.toNat := by
  simp [ofByte?, size_all]

theorem width_pos (op : Opcode) : 0 < op.width := by
  cases op <;> decide

end Opcode

end RoomScript
