import Meld.Vm.Types
import Mathlib.Algebra.BigOperators.Group.List.Basic
import Mathlib.Tactic.Ring

/-!
# Byte-code instructions

A compiled program is a sequence of bytes.  An instruction is one opcode byte followed by its
operands, and the size of the operands is nowhere in the encoding: the interpreter knows it from the
opcode.  It is written down by hand in three places, all of which are embedded here.

* The base-size constants, from which `advance` computes the distance to the next instruction.
* `executeFallThrough`: the distance by which the cases of `execute` move the program counter when
  they do not jump (`JUMP(label, offset)` followed by `ADVANCE()`); for an iterate, the distance to
  its body.
* `fixedOperands` and `operands`: where the operand accessors read.

Code is a function from addresses to bytes; multi-byte operands are little endian.
-/

namespace Meld

/-- The byte code, as seen through a `pcounter`. -/
abbrev Code := ℕ → UInt8

namespace Instr

/-! ## Sizes -/

def typeSize : ℕ := 1
def predicateSize : ℕ := 1
def externIdSize : ℕ := 1
def instrSize : ℕ := 1
def fieldSize : ℕ := 2 * 1
def iterMatchSize : ℕ := 2 * 1
def valSize : ℕ := 1
def intSize : ℕ := 4
def uintSize : ℕ := 4
def floatSize : ℕ := 8
def nodeSize : ℕ := 8
def ptrSize : ℕ := 8
def constIdSize : ℕ := uintSize
def boolSize : ℕ := 1
def argumentSize : ℕ := 1
def regValSize : ℕ := 1
def jumpSize : ℕ := 4
def countSize : ℕ := 1
def stackValSize : ℕ := 1
def operationSize : ℕ := instrSize + 3 * regValSize
def callSize : ℕ := instrSize + externIdSize + regValSize + typeSize + boolSize
def iterOptionsSize : ℕ := 2 * 1
def sendBase : ℕ := instrSize + 2 * regValSize
def threadSendBase : ℕ := sendBase
def iterBase0 : ℕ := instrSize + ptrSize + predicateSize + regValSize + boolSize + 2 * jumpSize
def iterBase : ℕ := iterBase0 + countSize
def oiterBase : ℕ := iterBase + iterOptionsSize
def persIterBase : ℕ := iterBase
def tpersIterBase : ℕ := iterBase
def linearIterBase : ℕ := iterBase
def tlinearIterBase : ℕ := iterBase
def trlinearIterBase : ℕ := iterBase
def rlinearIterBase : ℕ := iterBase
def opersIterBase : ℕ := oiterBase
def olinearIterBase : ℕ := oiterBase
def orlinearIterBase : ℕ := oiterBase
def allocBase : ℕ := instrSize + predicateSize + 2 * regValSize
def callBase : ℕ := callSize + countSize
def ifBase : ℕ := instrSize + 1 + jumpSize
def testnilBase : ℕ := instrSize + regValSize + regValSize
def notBase : ℕ := instrSize + 2 * regValSize
def returnBase : ℕ := instrSize
def nextBase : ℕ := instrSize
def floatBase : ℕ := instrSize + 2 * regValSize
def selectBase : ℕ := instrSize + 8
def returnSelectBase : ℕ := instrSize + 4
def removeBase : ℕ := instrSize + regValSize
def returnLinearBase : ℕ := instrSize
def returnDerivedBase : ℕ := instrSize
def resetLinearBase : ℕ := instrSize + jumpSize
def endLinearBase : ℕ := instrSize
def ruleBase : ℕ := instrSize + uintSize
def ruleDoneBase : ℕ := instrSize
def newNodeBase : ℕ := instrSize + regValSize
def newAxiomsBase : ℕ := instrSize + jumpSize
def sendDelayBase : ℕ := instrSize + 2 + uintSize
def pushBase : ℕ := instrSize
def popBase : ℕ := instrSize
def pushRegsBase : ℕ := instrSize
def popRegsBase : ℕ := instrSize
def callfBase : ℕ := instrSize + 1
def calleBase : ℕ := callSize + countSize
def makeStructrBase : ℕ := instrSize + typeSize + regValSize
def mvintfieldBase : ℕ := instrSize + intSize + fieldSize
def mvintregBase : ℕ := instrSize + intSize + regValSize
def mvtyperegBase : ℕ := mvintregBase
def mvthreadidregBase : ℕ := instrSize + regValSize
def mvthreadidfieldBase : ℕ := instrSize + fieldSize
def mvfieldfieldBase : ℕ := instrSize + fieldSize + fieldSize
def mvfieldregBase : ℕ := instrSize + fieldSize + regValSize
def mvptrregBase : ℕ := instrSize + ptrSize + regValSize
def mvnilfieldBase : ℕ := instrSize + fieldSize
def mvnilregBase : ℕ := instrSize + regValSize
def mvregfieldBase : ℕ := instrSize + regValSize + fieldSize
def mvhostfieldBase : ℕ := instrSize + fieldSize
def mvregconstBase : ℕ := instrSize + regValSize + constIdSize
def mvconstfieldBase : ℕ := instrSize + constIdSize + fieldSize
def mvaddrfieldBase : ℕ := instrSize + nodeSize + fieldSize
def mvfloatfieldBase : ℕ := instrSize + floatSize + fieldSize
def mvfloatregBase : ℕ := instrSize + floatSize + regValSize
def mvintconstBase : ℕ := instrSize + intSize + constIdSize
def mvworldfieldBase : ℕ := instrSize + fieldSize
def mvstackpcounterBase : ℕ := instrSize + stackValSize
def mvpcounterstackBase : ℕ := instrSize + stackValSize
def mvstackregBase : ℕ := instrSize + stackValSize + regValSize
def mvstackfieldBase : ℕ := instrSize + stackValSize + fieldSize
def mvregstackBase : ℕ := instrSize + regValSize + stackValSize
def mvaddrregBase : ℕ := instrSize + nodeSize + regValSize
def mvhostregBase : ℕ := instrSize + regValSize
def mvregregBase : ℕ := instrSize + 2 * regValSize
def mvargregBase : ℕ := instrSize + argumentSize + regValSize
def headrrBase : ℕ := instrSize + 2 * regValSize
def headfrBase : ℕ := instrSize + fieldSize + regValSize
def headffBase : ℕ := instrSize + 2 * fieldSize
def headrfBase : ℕ := instrSize * regValSize + fieldSize
def tailrrBase : ℕ := headrrBase
def tailfrBase : ℕ := headfrBase
def tailffBase : ℕ := headffBase
def tailrfBase : ℕ := headrfBase
def mvworldregBase : ℕ := instrSize + regValSize
def mvconstregBase : ℕ := instrSize + constIdSize + regValSize
def consrrrBase : ℕ := instrSize + typeSize + 3 * regValSize + boolSize
def consrffBase : ℕ := instrSize + regValSize + 2 * fieldSize
def consfrfBase : ℕ := instrSize + fieldSize + regValSize + fieldSize
def consffrBase : ℕ := instrSize + 2 * fieldSize + regValSize + boolSize
def consrrfBase : ℕ := instrSize + 2 * regValSize + fieldSize
def consrfrBase : ℕ := instrSize + regValSize + fieldSize + regValSize + boolSize
def consfrrBase : ℕ := instrSize + typeSize + fieldSize + 2 * regValSize + boolSize
def consfffBase : ℕ := instrSize + 3 * fieldSize
def call0Base : ℕ := callSize
def call1Base : ℕ := callSize + regValSize
def call2Base : ℕ := callSize + 2 * regValSize
def call3Base : ℕ := callSize + 3 * regValSize
def mvintstackBase : ℕ := instrSize + intSize + stackValSize
def pushnBase : ℕ := instrSize + countSize
def makeStructfBase : ℕ := instrSize + fieldSize
def structValrrBase : ℕ := instrSize + countSize + 2 * regValSize
def structValfrBase : ℕ := instrSize + countSize + fieldSize + regValSize
def structValrfBase : ℕ := structValfrBase
def structValrfrBase : ℕ := structValrfBase
def structValffBase : ℕ := instrSize + countSize + 2 * fieldSize
def structValffrBase : ℕ := structValffBase
def mvfloatstackBase : ℕ := instrSize + floatSize + stackValSize
def addlinearBase : ℕ := instrSize + regValSize
def addpersBase : ℕ := addlinearBase
def addtpersBase : ℕ := addlinearBase
def runactionBase : ℕ := addlinearBase
def enqueueLinearBase : ℕ := addlinearBase
def updateBase : ℕ := instrSize + regValSize
def setPriorityBase : ℕ := instrSize + 2 * regValSize
def setPriorityhBase : ℕ := instrSize + regValSize
def addPriorityBase : ℕ := instrSize + 2 * regValSize
def addPriorityhBase : ℕ := instrSize + regValSize
def setDefpriohBase : ℕ := instrSize + regValSize
def setDefprioBase : ℕ := instrSize + 2 * regValSize
def setStatichBase : ℕ := instrSize
def setStaticBase : ℕ := instrSize + regValSize
def setMovinghBase : ℕ := instrSize
def setMovingBase : ℕ := instrSize + regValSize
def setAffinityhBase : ℕ := instrSize + regValSize
def setAffinityBase : ℕ := instrSize + regValSize + regValSize
def cpuStaticBase : ℕ := instrSize + 2 * regValSize
def mvcpusregBase : ℕ := instrSize + regValSize
def setCpuhBase : ℕ := instrSize + regValSize
def isStaticBase : ℕ := instrSize + 2 * regValSize
def isMovingBase : ℕ := instrSize + 2 * regValSize
def stopProgBase : ℕ := instrSize
def cpuIdBase : ℕ := instrSize + 2 * regValSize
def nodePriorityBase : ℕ := instrSize + 2 * regValSize
def remPriorityBase : ℕ := instrSize + regValSize
def remPriorityhBase : ℕ := instrSize
def factsProvedBase : ℕ := instrSize + 2 * regValSize
def factsConsumedBase : ℕ := instrSize + 2 * regValSize
def scheduleNextBase : ℕ := instrSize + regValSize
def ifElseBase : ℕ := instrSize + regValSize + 2 * jumpSize
def jumpBase : ℕ := instrSize + jumpSize
def fabsBase : ℕ := instrSize + 2 * regValSize
def remoteUpdateBase : ℕ := instrSize + regValSize + 2 * predicateSize + 2 * countSize
def markRuleBase : ℕ := instrSize + uintSize
def literalConsBase : ℕ := instrSize + regValSize + typeSize + jumpSize
def nodeTypeBase : ℕ := instrSize + regValSize + uintSize

/-- `sizeof(code_size_t)`. -/
def codeSizeT : ℕ := 4

/-! ## Opcodes -/

/-- `instr_type`. -/
inductive InstrType where
  | returnInstr | nextInstr | persIterInstr | testnilInstr | opersIterInstr | linearIterInstr
  | rlinearIterInstr | notInstr | sendInstr | floatInstr | selectInstr | returnSelectInstr
  | olinearIterInstr | resetLinearInstr | endLinearInstr | ruleInstr | ruleDoneInstr
  | orlinearIterInstr | newNodeInstr | newAxiomsInstr | sendDelayInstr | pushInstr | popInstr
  | pushRegsInstr | popRegsInstr | callfInstr | calleInstr | setPriorityInstr | makeStructrInstr
  | mvintfieldInstr | mvintregInstr | callInstr | mvfieldfieldInstr | mvfieldregInstr
  | mvptrregInstr | mvnilregInstr | mvfieldfieldrInstr | mvregfieldInstr | mvregfieldrInstr
  | mvhostfieldInstr | mvregconstInstr | mvconstfieldInstr | mvconstfieldrInstr
  | mvaddrfieldInstr | mvfloatfieldInstr | mvfloatregInstr | mvintconstInstr | setPriorityhInstr
  | mvworldfieldInstr | mvstackpcounterInstr | mvpcounterstackInstr | mvstackregInstr
  | mvregstackInstr | mvaddrregInstr | mvhostregInstr | addrnotequalInstr | addrequalInstr
  | intminusInstr | intequalInstr | intnotequalInstr | intplusInstr | intlesserInstr
  | intgreaterequalInstr | allocInstr | boolorInstr | intlesserequalInstr | intgreaterInstr
  | intmulInstr | intdivInstr | floatplusInstr | floatminusInstr | floatmulInstr | floatdivInstr
  | floatequalInstr | floatnotequalInstr | floatlesserInstr | floatlesserequalInstr
  | floatgreaterInstr | floatgreaterequalInstr | mvregregInstr | boolequalInstr
  | boolnotequalInstr | headrrInstr | headfrInstr | headffInstr | headrfInstr | headffrInstr
  | headrfrInstr | tailrrInstr | tailfrInstr | tailffInstr | tailrfInstr | mvworldregInstr
  | mvconstregInstr | consrrrInstr | ifInstr | consrffInstr | consfrfInstr | consffrInstr
  | consrrfInstr | consrfrInstr | consfrrInstr | consfffInstr | call0Instr | call1Instr
  | call2Instr | call3Instr | mvintstackInstr | pushnInstr | makeStructfInstr | structValrrInstr
  | mvnilfieldInstr | structValfrInstr | structValrfInstr | structValrfrInstr | structValffInstr
  | structValffrInstr | mvfloatstackInstr | addlinearInstr | addpersInstr | runactionInstr
  | enqueueLinearInstr | updateInstr | mvargregInstr | intmodInstr | cpuIdInstr
  | nodePriorityInstr | removeInstr | ifElseInstr | jumpInstr | mvstackfieldInstr
  | remoteUpdateInstr | addPriorityInstr | addPriorityhInstr | stopProgInstr | setDefpriohInstr
  | setDefprioInstr | setStatichInstr | setStaticInstr | setMovinghInstr | setMovingInstr
  | setAffinityhInstr | setAffinityInstr | cpuStaticInstr | mvcpusregInstr | setCpuhInstr
  | isStaticInstr | isMovingInstr | factsProvedInstr | remPriorityInstr | remPriorityhInstr
  | factsConsumedInstr | tlinearIterInstr | addtpersInstr | scheduleNextInstr | tpersIterInstr
  | fabsInstr | mvtyperegInstr | mvthreadidregInstr | mvthreadidfieldInstr | threadSendInstr
  | trlinearIterInstr | literalConsInstr | nodeTypeInstr | returnLinearInstr | markRuleInstr
  | returnDerivedInstr
  deriving DecidableEq

/-- `fetch`: the opcodes of the enumeration `instr_type`; `execute` throws on any other byte. -/
def fetch (code : Code) (pc : ℕ) : Option InstrType :=
  match (code pc).toNat with
  | 0x00 => some .returnInstr
  | 0x01 => some .nextInstr
  | 0x02 => some .persIterInstr
  | 0x03 => some .testnilInstr
  | 0x04 => some .opersIterInstr
  | 0x05 => some .linearIterInstr
  | 0x06 => some .rlinearIterInstr
  | 0x07 => some .notInstr
  | 0x08 => some .sendInstr
  | 0x09 => some .floatInstr
  | 0x0a => some .selectInstr
  | 0x0b => some .returnSelectInstr
  | 0x0c => some .olinearIterInstr
  | 0x0e => some .resetLinearInstr
  | 0x0f => some .endLinearInstr
  | 0x10 => some .ruleInstr
  | 0x11 => some .ruleDoneInstr
  | 0x12 => some .orlinearIterInstr
  | 0x13 => some .newNodeInstr
  | 0x14 => some .newAxiomsInstr
  | 0x15 => some .sendDelayInstr
  | 0x16 => some .pushInstr
  | 0x17 => some .popInstr
  | 0x18 => some .pushRegsInstr
  | 0x19 => some .popRegsInstr
  | 0x1a => some .callfInstr
  | 0x1b => some .calleInstr
  | 0x1c => some .setPriorityInstr
  | 0x1d => some .makeStructrInstr
  | 0x1e => some .mvintfieldInstr
  | 0x1f => some .mvintregInstr
  | 0x20 => some .callInstr
  | 0x21 => some .mvfieldfieldInstr
  | 0x22 => some .mvfieldregInstr
  | 0x23 => some .mvptrregInstr
  | 0x24 => some .mvnilregInstr
  | 0x25 => some .mvfieldfieldrInstr
  | 0x26 => some .mvregfieldInstr
  | 0x27 => some .mvregfieldrInstr
  | 0x28 => some .mvhostfieldInstr
  | 0x29 => some .mvregconstInstr
  | 0x2a => some .mvconstfieldInstr
  | 0x2b => some .mvconstfieldrInstr
  | 0x2c => some .mvaddrfieldInstr
  | 0x2d => some .mvfloatfieldInstr
  | 0x2e => some .mvfloatregInstr
  | 0x2f => some .mvintconstInstr
  | 0x30 => some .setPriorityhInstr
  | 0x31 => some .mvworldfieldInstr
  | 0x32 => some .mvstackpcounterInstr
  | 0x33 => some .mvpcounterstackInstr
  | 0x34 => some .mvstackregInstr
  | 0x35 => some .mvregstackInstr
  | 0x36 => some .mvaddrregInstr
  | 0x37 => some .mvhostregInstr
  | 0x38 => some .addrnotequalInstr
  | 0x39 => some .addrequalInstr
  | 0x3a => some .intminusInstr
  | 0x3b => some .intequalInstr
  | 0x3c => some .intnotequalInstr
  | 0x3d => some .intplusInstr
  | 0x3e => some .intlesserInstr
  | 0x3f => some .intgreaterequalInstr
  | 0x40 => some .allocInstr
  | 0x41 => some .boolorInstr
  | 0x42 => some .intlesserequalInstr
  | 0x43 => some .intgreaterInstr
  | 0x44 => some .intmulInstr
  | 0x45 => some .intdivInstr
  | 0x46 => some .floatplusInstr
  | 0x47 => some .floatminusInstr
  | 0x48 => some .floatmulInstr
  | 0x49 => some .floatdivInstr
  | 0x4a => some .floatequalInstr
  | 0x4b => some .floatnotequalInstr
  | 0x4c => some .floatlesserInstr
  | 0x4d => some .floatlesserequalInstr
  | 0x4e => some .floatgreaterInstr
  | 0x4f => some .floatgreaterequalInstr
  | 0x50 => some .mvregregInstr
  | 0x51 => some .boolequalInstr
  | 0x52 => some .boolnotequalInstr
  | 0x53 => some .headrrInstr
  | 0x54 => some .headfrInstr
  | 0x55 => some .headffInstr
  | 0x56 => some .headrfInstr
  | 0x57 => some .headffrInstr
  | 0x58 => some .headrfrInstr
  | 0x59 => some .tailrrInstr
  | 0x5a => some .tailfrInstr
  | 0x5b => some .tailffInstr
  | 0x5c => some .tailrfInstr
  | 0x5d => some .mvworldregInstr
  | 0x5e => some .mvconstregInstr
  | 0x5f => some .consrrrInstr
  | 0x60 => some .ifInstr
  | 0x61 => some .consrffInstr
  | 0x62 => some .consfrfInstr
  | 0x63 => some .consffrInstr
  | 0x64 => some .consrrfInstr
  | 0x65 => some .consrfrInstr
  | 0x66 => some .consfrrInstr
  | 0x67 => some .consfffInstr
  | 0x68 => some .call0Instr
  | 0x69 => some .call1Instr
  | 0x6a => some .call2Instr
  | 0x6b => some .call3Instr
  | 0x6c => some .mvintstackInstr
  | 0x6d => some .pushnInstr
  | 0x6e => some .makeStructfInstr
  | 0x6f => some .structValrrInstr
  | 0x70 => some .mvnilfieldInstr
  | 0x71 => some .structValfrInstr
  | 0x72 => some .structValrfInstr
  | 0x73 => some .structValrfrInstr
  | 0x74 => some .structValffInstr
  | 0x75 => some .structValffrInstr
  | 0x76 => some .mvfloatstackInstr
  | 0x77 => some .addlinearInstr
  | 0x78 => some .addpersInstr
  | 0x79 => some .runactionInstr
  | 0x7a => some .enqueueLinearInstr
  | 0x7b => some .updateInstr
  | 0x7c => some .mvargregInstr
  | 0x7d => some .intmodInstr
  | 0x7e => some .cpuIdInstr
  | 0x7f => some .nodePriorityInstr
  | 0x80 => some .removeInstr
  | 0x81 => some .ifElseInstr
  | 0x82 => some .jumpInstr
  | 0x83 => some .mvstackfieldInstr
  | 0x84 => some .remoteUpdateInstr
  | 0xa0 => some .addPriorityInstr
  | 0xa1 => some .addPriorityhInstr
  | 0xa2 => some .stopProgInstr
  | 0xa3 => some .setDefpriohInstr
  | 0xa4 => some .setDefprioInstr
  | 0xa5 => some .setStatichInstr
  | 0xa6 => some .setStaticInstr
  | 0xa7 => some .setMovinghInstr
  | 0xa8 => some .setMovingInstr
  | 0xa9 => some .setAffinityhInstr
  | 0xaa => some .setAffinityInstr
  | 0xab => some .cpuStaticInstr
  | 0xac => some .mvcpusregInstr
  | 0xad => some .setCpuhInstr
  | 0xae => some .isStaticInstr
  | 0xaf => some .isMovingInstr
  | 0xb0 => some .factsProvedInstr
  | 0xb1 => some .remPriorityInstr
  | 0xb2 => some .remPriorityhInstr
  | 0xb3 => some .factsConsumedInstr
  | 0xb4 => some .tlinearIterInstr
  | 0xb5 => some .addtpersInstr
  | 0xb6 => some .scheduleNextInstr
  | 0xb7 => some .tpersIterInstr
  | 0xb8 => some .fabsInstr
  | 0xb9 => some .mvtyperegInstr
  | 0xba => some .mvthreadidregInstr
  | 0xbb => some .mvthreadidfieldInstr
  | 0xbc => some .threadSendInstr
  | 0xbd => some .trlinearIterInstr
  | 0xbe => some .literalConsInstr
  | 0xbf => some .nodeTypeInstr
  | 0xd0 => some .returnLinearInstr
  | 0xd1 => some .markRuleInstr
  | 0xf0 => some .returnDerivedInstr
  | _ => none

/-! ## Reading operands -/

variable (code : Code) (pc : ℕ)

/-- `byte_get`. -/
def byteGet (off : ℕ) : ℕ := (code (pc + off)).toNat

/-- `pcounter_uint`, `pcounter_code_size`: four bytes, little endian. -/
def pcounterUint : ℕ :=
  byteGet code pc 0 + 2 ^ 8 * byteGet code pc 1 + 2 ^ 16 * byteGet code pc 2 +
    2 ^ 24 * byteGet code pc 3

/-- `jump_get`. -/
def jumpGet (off : ℕ) : ℕ := pcounterUint code (pc + off)

/-- `val_get`: the low six bits. -/
def valGet (off : ℕ) : ℕ := byteGet code pc off % 2 ^ 6

/-- `predicate_get`: the low seven bits. -/
def predicateGet (off : ℕ) : ℕ := byteGet code pc off % 2 ^ 7

/-- `iter_predicate`. -/
def iterPredicate : ℕ := predicateGet code pc (instrSize + ptrSize)

/-- `iter_inner_jump`. -/
def iterInnerJump : ℕ :=
  jumpGet code pc (instrSize + ptrSize + predicateSize + regValSize + boolSize)

/-- `iter_matches_size`. -/
def iterMatchesSize (base : ℕ) : ℕ := byteGet code pc (base - countSize)

/-- `call_num_args`. -/
def callNumArgs : ℕ := byteGet code pc callSize

/-- `calle_num_args`. -/
def calleNumArgs : ℕ := byteGet code pc callSize

/-- `select_hash_size`. -/
def selectHashSize : ℕ := pcounterUint code (pc + instrSize + codeSizeT)

/-- `new_axioms_jump`. -/
def newAxiomsJump : ℕ := jumpGet code pc instrSize

/-- `remote_update_nregs`. -/
def remoteUpdateNregs : ℕ :=
  byteGet code pc (instrSize + regValSize + 2 * predicateSize + countSize)

/-- `literal_cons_jump`. -/
def literalConsJump : ℕ := jumpGet code pc (literalConsBase - jumpSize)

/-- `literal_cons_type`. -/
def literalConsType : ℕ := byteGet code pc (literalConsBase - jumpSize - typeSize)

/-- The number of nodes a `NODE_TYPE` table has entries for, as it stands in the code. -/
def nodeTypeCount : ℕ := pcounterUint code (pc + instrSize + regValSize)

/-- `node_type_nodes`: the same number read as an `int_val`, a signed 32-bit integer. -/
def nodeTypeNodes : ℤ :=
  if nodeTypeCount code pc < 2 ^ 31 then (nodeTypeCount code pc : ℤ)
  else (nodeTypeCount code pc : ℤ) - 2 ^ 32

/-- The distance `NODE_TYPE_BASE + node_type_nodes(pc) * val_size`, computed in `size_t`: a negative
number of nodes is sign extended and the sum wraps around. -/
def nodeTypeDistance : ℕ :=
  (((nodeTypeBase : ℤ) + nodeTypeNodes code pc * (valSize : ℤ)) % 2 ^ 64).toNat

/-! ## The distance to the next instruction -/

/-- `advance(pc) - pc`. -/
def advance : InstrType → ℕ
  | .sendInstr | .threadSendInstr => sendBase
  | .addlinearInstr => addlinearBase
  | .addpersInstr | .addtpersInstr => addpersBase
  | .runactionInstr => runactionBase
  | .enqueueLinearInstr => enqueueLinearBase
  | .floatInstr => floatBase
  | .persIterInstr | .tpersIterInstr | .opersIterInstr | .linearIterInstr | .tlinearIterInstr
  | .trlinearIterInstr | .rlinearIterInstr | .olinearIterInstr | .orlinearIterInstr =>
    iterInnerJump code pc
  | .allocInstr => allocBase
  | .callInstr => callBase + callNumArgs code pc * regValSize
  | .call0Instr => call0Base
  | .call1Instr => call1Base
  | .call2Instr => call2Base
  | .call3Instr => call3Base
  | .calleInstr => calleBase + calleNumArgs code pc * regValSize
  | .ifInstr => ifBase
  | .ifElseInstr => ifElseBase
  | .jumpInstr => jumpBase
  | .testnilInstr => testnilBase
  | .notInstr => notBase
  | .returnInstr => returnBase
  | .returnLinearInstr => returnLinearBase
  | .returnDerivedInstr => returnDerivedBase
  | .nextInstr => nextBase
  | .returnSelectInstr => returnSelectBase
  | .selectInstr => selectBase + selectHashSize code pc * codeSizeT
  | .removeInstr => removeBase
  | .updateInstr => updateBase
  | .resetLinearInstr => resetLinearBase
  | .endLinearInstr => endLinearBase
  | .ruleInstr => ruleBase
  | .ruleDoneInstr => ruleDoneBase
  | .newNodeInstr => newNodeBase
  | .newAxiomsInstr => newAxiomsJump code pc
  | .sendDelayInstr => sendDelayBase
  | .pushInstr => pushBase
  | .pushnInstr => pushnBase
  | .popInstr => popBase
  | .pushRegsInstr => pushRegsBase
  | .popRegsInstr => popRegsBase
  | .callfInstr => callfBase
  | .makeStructrInstr => makeStructrBase
  | .makeStructfInstr => makeStructfBase
  | .structValrrInstr => structValrrBase
  | .structValfrInstr => structValfrBase
  | .structValrfInstr => structValrfBase
  | .structValrfrInstr => structValrfrBase
  | .structValffInstr => structValffBase
  | .structValffrInstr => structValffrBase
  | .mvintfieldInstr => mvintfieldBase
  | .mvintregInstr => mvintregBase
  | .mvfieldfieldInstr | .mvfieldfieldrInstr => mvfieldfieldBase
  | .mvfieldregInstr => mvfieldregBase
  | .mvptrregInstr => mvptrregBase
  | .mvnilfieldInstr => mvnilfieldBase
  | .mvnilregInstr => mvnilregBase
  | .mvregfieldInstr | .mvregfieldrInstr => mvregfieldBase
  | .mvhostfieldInstr => mvhostfieldBase
  | .mvregconstInstr => mvregconstBase
  | .mvconstfieldInstr | .mvconstfieldrInstr => mvconstfieldBase
  | .mvaddrfieldInstr => mvaddrfieldBase
  | .mvfloatfieldInstr => mvfloatfieldBase
  | .mvfloatregInstr => mvfloatregBase
  | .mvintconstInstr => mvintconstBase
  | .mvworldfieldInstr => mvworldfieldBase
  | .mvstackpcounterInstr => mvstackpcounterBase
  | .mvpcounterstackInstr => mvpcounterstackBase
  | .mvstackregInstr => mvstackregBase
  | .mvregstackInstr => mvregstackBase
  | .mvaddrregInstr => mvaddrregBase
  | .mvhostregInstr => mvhostregBase
  | .mvfloatstackInstr => mvfloatstackBase
  | .mvargregInstr => mvargregBase
  | .addrnotequalInstr | .addrequalInstr | .intminusInstr | .intequalInstr | .intnotequalInstr
  | .intplusInstr | .intlesserInstr | .intgreaterequalInstr | .intlesserequalInstr
  | .intgreaterInstr | .intmulInstr | .intdivInstr | .intmodInstr | .floatplusInstr
  | .floatminusInstr | .floatmulInstr | .floatdivInstr | .floatequalInstr | .floatnotequalInstr
  | .floatlesserInstr | .floatlesserequalInstr | .floatgreaterInstr | .floatgreaterequalInstr
  | .boolorInstr | .boolequalInstr | .boolnotequalInstr => operationSize
  | .mvregregInstr => mvregregBase
  | .headrrInstr => headrrBase
  | .headfrInstr => headfrBase
  | .headffInstr | .headffrInstr => headffBase
  | .headrfInstr | .headrfrInstr => headrfBase
  | .tailrrInstr => tailrrBase
  | .tailfrInstr => tailfrBase
  | .tailffInstr => tailffBase
  | .tailrfInstr => tailrfBase
  | .mvworldregInstr => mvworldregBase
  | .mvconstregInstr => mvconstregBase
  | .mvintstackInstr => mvintstackBase
  | .consrrrInstr => consrrrBase
  | .consrffInstr => consrffBase
  | .consfrfInstr => consfrfBase
  | .consffrInstr => consffrBase
  | .consrrfInstr => consrrfBase
  | .consrfrInstr => consrfrBase
  | .consfrrInstr => consfrrBase
  | .consfffInstr => consfffBase
  | .setPriorityInstr => setPriorityBase
  | .setPriorityhInstr => setPriorityhBase
  | .addPriorityInstr => addPriorityBase
  | .addPriorityhInstr => addPriorityhBase
  | .stopProgInstr => stopProgBase
  | .cpuIdInstr => cpuIdBase
  | .nodePriorityInstr => nodePriorityBase
  | .mvstackfieldInstr => mvstackfieldBase
  | .setDefpriohInstr => setDefpriohBase
  | .setDefprioInstr => setDefprioBase
  | .setStatichInstr => setStatichBase
  | .setStaticInstr => setStaticBase
  | .setMovinghInstr => setMovinghBase
  | .setMovingInstr => setMovingBase
  | .setAffinityhInstr => setAffinityhBase
  | .setAffinityInstr => setAffinityBase
  | .cpuStaticInstr => cpuStaticBase
  | .mvcpusregInstr => mvcpusregBase
  | .setCpuhInstr => setCpuhBase
  | .isStaticInstr => isStaticBase
  | .isMovingInstr => isMovingBase
  | .remPriorityInstr => remPriorityBase
  | .remPriorityhInstr => remPriorityhBase
  | .factsProvedInstr => factsProvedBase
  | .factsConsumedInstr => factsConsumedBase
  | .scheduleNextInstr => scheduleNextBase
  | .fabsInstr => fabsBase
  | .remoteUpdateInstr => remoteUpdateBase + remoteUpdateNregs code pc * regValSize
  | .nodeTypeInstr => nodeTypeDistance code pc
  | .mvtyperegInstr => mvtyperegBase
  | .mvthreadidregInstr => mvthreadidregBase
  | .mvthreadidfieldInstr => mvthreadidfieldBase
  | .markRuleInstr => markRuleBase
  | .literalConsInstr => literalConsJump code pc

/-- The distance by which `execute` moves `pc` when it goes on with the code that follows the
instruction: the second argument of `JUMP`, what a `COMPLEX_JUMP` case adds to `pc` by hand, or the
start of the body for an iterate.  `none` for the instructions that have no such path: those that
return, and those that always go somewhere else. -/
def executeFallThrough : InstrType → Option ℕ
  | .returnInstr | .nextInstr | .returnLinearInstr | .returnDerivedInstr | .endLinearInstr
  | .returnSelectInstr | .jumpInstr | .selectInstr | .callfInstr | .mvstackpcounterInstr => none
  | .persIterInstr | .linearIterInstr | .tlinearIterInstr | .trlinearIterInstr | .tpersIterInstr
  | .rlinearIterInstr | .opersIterInstr | .olinearIterInstr | .orlinearIterInstr =>
    some (iterInnerJump code pc)
  | .ifInstr => some ifBase
  | .ifElseInstr => some ifElseBase
  | .resetLinearInstr => some resetLinearBase
  | .removeInstr => some removeBase
  | .updateInstr => some updateBase
  | .allocInstr => some allocBase
  | .sendInstr => some sendBase
  | .threadSendInstr => some threadSendBase
  | .addlinearInstr => some addlinearBase
  | .addpersInstr => some addpersBase
  | .runactionInstr => some runactionBase
  | .enqueueLinearInstr => some enqueueLinearBase
  | .sendDelayInstr => some sendDelayBase
  | .notInstr => some notBase
  | .testnilInstr => some testnilBase
  | .floatInstr => some floatBase
  | .callInstr => some (callBase + callNumArgs code pc * regValSize)
  | .call0Instr => some call0Base
  | .call1Instr => some call1Base
  | .call2Instr => some call2Base
  | .call3Instr => some call3Base
  | .ruleInstr => some ruleBase
  | .ruleDoneInstr => some ruleDoneBase
  | .newNodeInstr => some newNodeBase
  | .newAxiomsInstr => some (newAxiomsJump code pc)
  | .pushInstr => some pushBase
  | .pushnInstr => some pushnBase
  | .popInstr => some popBase
  | .pushRegsInstr => some pushRegsBase
  | .popRegsInstr => some popRegsBase
  | .makeStructrInstr => some makeStructrBase
  | .makeStructfInstr => some makeStructfBase
  | .structValrrInstr => some structValrrBase
  | .structValfrInstr => some structValfrBase
  | .structValrfInstr => some structValrfBase
  | .structValrfrInstr => some structValrfrBase
  | .structValffInstr => some structValffBase
  | .structValffrInstr => some structValffrBase
  | .mvintfieldInstr => some mvintfieldBase
  | .mvintregInstr => some mvintregBase
  | .mvtyperegInstr => some mvtyperegBase
  | .mvfieldfieldInstr | .mvfieldfieldrInstr => some mvfieldfieldBase
  | .mvfieldregInstr => some mvfieldregBase
  | .mvptrregInstr => some mvptrregBase
  | .mvnilfieldInstr => some mvnilfieldBase
  | .mvnilregInstr => some mvnilregBase
  | .mvregfieldInstr | .mvregfieldrInstr => some mvregfieldBase
  | .mvhostfieldInstr => some mvhostfieldBase
  | .mvregconstInstr => some mvregconstBase
  | .mvconstfieldInstr | .mvconstfieldrInstr => some mvconstfieldBase
  | .mvaddrfieldInstr => some mvaddrfieldBase
  | .mvfloatfieldInstr => some mvfloatfieldBase
  | .mvfloatregInstr => some mvfloatregBase
  | .mvintconstInstr => some mvintconstBase
  | .mvworldfieldInstr => some mvworldfieldBase
  | .mvpcounterstackInstr => some mvpcounterstackBase
  | .mvstackregInstr => some mvstackregBase
  | .mvregstackInstr => some mvregstackBase
  | .mvaddrregInstr => some mvaddrregBase
  | .mvhostregInstr => some mvhostregBase
  | .mvthreadidregInstr => some mvthreadidregBase
  | .mvthreadidfieldInstr => some mvthreadidfieldBase
  | .addrnotequalInstr | .addrequalInstr | .intminusInstr | .intequalInstr | .intnotequalInstr
  | .intplusInstr | .intlesserInstr | .intgreaterequalInstr | .boolorInstr | .intlesserequalInstr
  | .intgreaterInstr | .intmulInstr | .intdivInstr | .intmodInstr | .floatplusInstr
  | .floatminusInstr | .floatmulInstr | .floatdivInstr | .floatequalInstr | .floatnotequalInstr
  | .floatlesserInstr | .floatlesserequalInstr | .floatgreaterInstr | .floatgreaterequalInstr
  | .boolequalInstr | .boolnotequalInstr => some operationSize
  | .mvregregInstr => some mvregregBase
  | .headrrInstr => some headrrBase
  | .headfrInstr => some headfrBase
  | .headffInstr | .headffrInstr => some headffBase
  | .headrfInstr | .headrfrInstr => some headrfBase
  | .tailrrInstr => some tailrrBase
  | .tailfrInstr => some tailfrBase
  | .tailffInstr => some tailffBase
  | .tailrfInstr => some tailrfBase
  | .mvworldregInstr => some mvworldregBase
  | .mvconstregInstr => some mvconstregBase
  | .mvintstackInstr => some mvintstackBase
  | .mvfloatstackInstr => some mvfloatstackBase
  | .mvargregInstr => some mvargregBase
  | .consrrrInstr => some consrrrBase
  | .consrffInstr => some consrffBase
  | .consfrfInstr => some consfrfBase
  | .consffrInstr => some consffrBase
  | .consrrfInstr => some consrrfBase
  | .consrfrInstr => some consrfrBase
  | .consfrrInstr => some consfrrBase
  | .consfffInstr => some consfffBase
  | .calleInstr => some (calleBase * calleNumArgs code pc)
  | .setPriorityInstr => some setPriorityBase
  | .setPriorityhInstr => some setPriorityhBase
  | .addPriorityInstr => some addPriorityBase
  | .addPriorityhInstr => some addPriorityhBase
  | .setDefpriohInstr => some setDefpriohBase
  | .setDefprioInstr => some setDefprioBase
  | .setStatichInstr => some setStatichBase
  | .setStaticInstr => some setStaticBase
  | .setMovinghInstr => some setMovinghBase
  | .setMovingInstr => some setMovingBase
  | .setAffinityhInstr => some setAffinityhBase
  | .setAffinityInstr => some setAffinityBase
  | .stopProgInstr => some stopProgBase
  | .cpuIdInstr => some cpuIdBase
  | .nodePriorityInstr => some nodePriorityBase
  | .cpuStaticInstr => some cpuStaticBase
  | .mvcpusregInstr => some mvcpusregBase
  | .setCpuhInstr => some setCpuhBase
  | .mvstackfieldInstr => some mvstackfieldBase
  | .isStaticInstr => some isStaticBase
  | .isMovingInstr => some isMovingBase
  | .factsProvedInstr => some factsProvedBase
  | .factsConsumedInstr => some factsConsumedBase
  | .remPriorityInstr => some remPriorityBase
  | .remPriorityhInstr => some remPriorityhBase
  | .scheduleNextInstr => some scheduleNextBase
  | .addtpersInstr => some addtpersBase
  | .fabsInstr => some fabsBase
  | .markRuleInstr => some markRuleBase
  | .remoteUpdateInstr => some (remoteUpdateBase + remoteUpdateNregs code pc * regValSize)
  | .literalConsInstr => some (literalConsJump code pc)
  | .nodeTypeInstr => some (nodeTypeDistance code pc)

/-! ## Operand accessors -/

/-- A read of `width` bytes at distance `off` from the opcode. -/
structure Access where
  off : ℕ
  width : ℕ
  deriving DecidableEq

namespace Access

/-- `pcounter_reg`, `reg_get`. -/
def reg (off : ℕ) : Access := ⟨off, regValSize⟩

/-- `val_field_num` and `val_field_reg`. -/
def field (off : ℕ) : Access := ⟨off, fieldSize⟩

/-- `byte_get`, and the single bytes read by `pcounter_bool`, `predicate_get`, `pcounter_stack`,
`pcounter_argument_id`. -/
def byte (off : ℕ) : Access := ⟨off, 1⟩

/-- `jump_get`, `pcounter_code_size`. -/
def jump (off : ℕ) : Access := ⟨off, jumpSize⟩

/-- `pcounter_int`, `pcounter_uint`, `pcounter_const_id`. -/
def int (off : ℕ) : Access := ⟨off, intSize⟩

/-- `pcounter_float`. -/
def float (off : ℕ) : Access := ⟨off, floatSize⟩

/-- `pcounter_node`. -/
def node (off : ℕ) : Access := ⟨off, nodeSize⟩

/-- `pcounter_ptr`. -/
def ptr (off : ℕ) : Access := ⟨off, ptrSize⟩

end Access

/-- The number of bytes a sequence of accesses reads. -/
def span (accs : List Access) : ℕ := (accs.map Access.width).sum

/-- The accesses read contiguous bytes in order, from distance `start` on. -/
def Tiles : ℕ → List Access → Prop
  | _, [] => True
  | start, a :: accs => a.off = start ∧ Tiles (start + a.width) accs

instance Tiles.decidable : (start : ℕ) → (accs : List Access) → Decidable (Tiles start accs)
  | _, [] => .isTrue trivial
  | start, a :: accs =>
    have := Tiles.decidable (start + a.width) accs
    inferInstanceAs (Decidable (a.off = start ∧ Tiles (start + a.width) accs))

/-- The operand accessors of an instruction at distances that do not depend on the code, in the
order of these distances.  `STRUCT_VALFF` and `STRUCT_VALFFR` have an index operand that only the
printer reads. -/
def fixedOperands : InstrType → List Access
  | .returnInstr | .nextInstr | .returnLinearInstr | .returnDerivedInstr | .endLinearInstr
  | .ruleDoneInstr | .pushInstr | .popInstr | .pushRegsInstr | .popRegsInstr | .setStatichInstr
  | .setMovinghInstr | .stopProgInstr | .remPriorityhInstr => []
  | .removeInstr | .updateInstr | .addlinearInstr | .addpersInstr | .runactionInstr
  | .enqueueLinearInstr | .newNodeInstr | .mvnilregInstr | .mvhostregInstr | .mvthreadidregInstr
  | .mvworldregInstr | .setPriorityhInstr | .addPriorityhInstr | .setDefpriohInstr
  | .setStaticInstr | .setMovingInstr | .setAffinityhInstr | .mvcpusregInstr | .setCpuhInstr
  | .remPriorityInstr | .scheduleNextInstr | .addtpersInstr => [.reg instrSize]
  | .sendInstr | .threadSendInstr | .notInstr | .testnilInstr | .floatInstr | .mvregregInstr
  | .headrrInstr | .tailrrInstr | .setPriorityInstr | .addPriorityInstr | .setDefprioInstr
  | .setAffinityInstr | .cpuIdInstr | .nodePriorityInstr | .cpuStaticInstr | .isStaticInstr
  | .isMovingInstr | .factsProvedInstr | .factsConsumedInstr | .fabsInstr =>
    [.reg instrSize, .reg (instrSize + regValSize)]
  | .addrnotequalInstr | .addrequalInstr | .intminusInstr | .intequalInstr | .intnotequalInstr
  | .intplusInstr | .intlesserInstr | .intgreaterequalInstr | .boolorInstr | .intlesserequalInstr
  | .intgreaterInstr | .intmulInstr | .intdivInstr | .intmodInstr | .floatplusInstr
  | .floatminusInstr | .floatmulInstr | .floatdivInstr | .floatequalInstr | .floatnotequalInstr
  | .floatlesserInstr | .floatlesserequalInstr | .floatgreaterInstr | .floatgreaterequalInstr
  | .boolequalInstr | .boolnotequalInstr =>
    [.reg instrSize, .reg (instrSize + regValSize), .reg (instrSize + 2 * regValSize)]
  | .ifInstr => [.reg instrSize, .jump (instrSize + regValSize)]
  | .ifElseInstr =>
    [.reg instrSize, .jump (instrSize + regValSize), .jump (instrSize + regValSize + jumpSize)]
  | .jumpInstr | .resetLinearInstr | .returnSelectInstr | .newAxiomsInstr => [.jump instrSize]
  | .persIterInstr | .tpersIterInstr | .linearIterInstr | .tlinearIterInstr | .trlinearIterInstr
  | .rlinearIterInstr =>
    [.ptr instrSize, .byte (instrSize + ptrSize), .reg (instrSize + ptrSize + predicateSize),
      .byte (instrSize + ptrSize + predicateSize + regValSize),
      .jump (instrSize + ptrSize + predicateSize + regValSize + boolSize),
      .jump (instrSize + ptrSize + predicateSize + regValSize + boolSize + jumpSize),
      .byte (iterBase - countSize)]
  | .opersIterInstr | .olinearIterInstr | .orlinearIterInstr =>
    [.ptr instrSize, .byte (instrSize + ptrSize), .reg (instrSize + ptrSize + predicateSize),
      .byte (instrSize + ptrSize + predicateSize + regValSize),
      .jump (instrSize + ptrSize + predicateSize + regValSize + boolSize),
      .jump (instrSize + ptrSize + predicateSize + regValSize + boolSize + jumpSize),
      .byte iterBase0, .byte (iterBase0 + 1), .byte (oiterBase - countSize)]
  | .allocInstr =>
    [.byte instrSize, .reg (instrSize + predicateSize),
      .reg (instrSize + predicateSize + regValSize)]
  | .sendDelayInstr =>
    [.reg instrSize, .reg (instrSize + regValSize), .int (instrSize + 2 * regValSize)]
  | .callInstr | .calleInstr =>
    [.byte instrSize, .reg (instrSize + externIdSize),
      .byte (instrSize + externIdSize + regValSize),
      .byte (instrSize + externIdSize + regValSize + typeSize), .byte callSize]
  | .call0Instr =>
    [.byte instrSize, .reg (instrSize + externIdSize),
      .byte (instrSize + externIdSize + regValSize),
      .byte (instrSize + externIdSize + regValSize + typeSize)]
  | .call1Instr =>
    [.byte instrSize, .reg (instrSize + externIdSize),
      .byte (instrSize + externIdSize + regValSize),
      .byte (instrSize + externIdSize + regValSize + typeSize), .reg callSize]
  | .call2Instr =>
    [.byte instrSize, .reg (instrSize + externIdSize),
      .byte (instrSize + externIdSize + regValSize),
      .byte (instrSize + externIdSize + regValSize + typeSize), .reg callSize,
      .reg (callSize + regValSize)]
  | .call3Instr =>
    [.byte instrSize, .reg (instrSize + externIdSize),
      .byte (instrSize + externIdSize + regValSize),
      .byte (instrSize + externIdSize + regValSize + typeSize), .reg callSize,
      .reg (callSize + regValSize), .reg (callSize + 2 * regValSize)]
  | .selectInstr => [.jump instrSize, .jump (instrSize + codeSizeT)]
  | .ruleInstr | .markRuleInstr => [.int instrSize]
  | .pushnInstr | .callfInstr => [.byte instrSize]
  | .makeStructrInstr => [.byte instrSize, .reg (instrSize + typeSize)]
  | .makeStructfInstr | .mvnilfieldInstr | .mvhostfieldInstr | .mvworldfieldInstr
  | .mvthreadidfieldInstr => [.field instrSize]
  | .structValrrInstr =>
    [.byte instrSize, .reg (instrSize + countSize), .reg (instrSize + countSize + regValSize)]
  | .structValfrInstr =>
    [.byte instrSize, .field (instrSize + countSize), .reg (instrSize + countSize + fieldSize)]
  | .structValrfInstr | .structValrfrInstr =>
    [.byte instrSize, .reg (instrSize + countSize), .field (instrSize + countSize + regValSize)]
  | .structValffInstr | .structValffrInstr =>
    [.byte instrSize, .field (instrSize + countSize), .field (instrSize + countSize + fieldSize)]
  | .mvintfieldInstr => [.int instrSize, .field (instrSize + intSize)]
  | .mvintregInstr | .mvtyperegInstr => [.int instrSize, .reg (instrSize + intSize)]
  | .mvfieldfieldInstr | .mvfieldfieldrInstr | .headffInstr | .headffrInstr | .tailffInstr =>
    [.field instrSize, .field (instrSize + fieldSize)]
  | .mvfieldregInstr | .headfrInstr | .tailfrInstr =>
    [.field instrSize, .reg (instrSize + fieldSize)]
  | .mvptrregInstr => [.ptr instrSize, .reg (instrSize + ptrSize)]
  | .mvregfieldInstr | .mvregfieldrInstr | .headrfInstr | .headrfrInstr | .tailrfInstr =>
    [.reg instrSize, .field (instrSize + regValSize)]
  | .mvregconstInstr => [.reg instrSize, .int (instrSize + regValSize)]
  | .mvconstfieldInstr | .mvconstfieldrInstr => [.int instrSize, .field (instrSize + constIdSize)]
  | .mvaddrfieldInstr => [.node instrSize, .field (instrSize + nodeSize)]
  | .mvfloatfieldInstr => [.float instrSize, .field (instrSize + floatSize)]
  | .mvfloatregInstr => [.float instrSize, .reg (instrSize + floatSize)]
  | .mvintconstInstr => [.int instrSize, .int (instrSize + intSize)]
  | .mvstackpcounterInstr | .mvpcounterstackInstr => [.byte instrSize]
  | .mvstackregInstr => [.byte instrSize, .reg (instrSize + stackValSize)]
  | .mvregstackInstr => [.reg instrSize, .byte (instrSize + regValSize)]
  | .mvaddrregInstr => [.node instrSize, .reg (instrSize + nodeSize)]
  | .mvconstregInstr => [.int instrSize, .reg (instrSize + constIdSize)]
  | .mvintstackInstr => [.int instrSize, .byte (instrSize + intSize)]
  | .mvfloatstackInstr => [.float instrSize, .byte (instrSize + floatSize)]
  | .mvargregInstr => [.byte instrSize, .reg (instrSize + argumentSize)]
  | .mvstackfieldInstr => [.byte instrSize, .field (instrSize + stackValSize)]
  | .consrrrInstr =>
    [.byte instrSize, .reg (instrSize + typeSize), .reg (instrSize + typeSize + regValSize),
      .reg (instrSize + typeSize + 2 * regValSize), .byte (instrSize + typeSize + 3 * regValSize)]
  | .consrffInstr =>
    [.reg instrSize, .field (instrSize + regValSize), .field (instrSize + regValSize + fieldSize)]
  | .consfrfInstr =>
    [.field instrSize, .reg (instrSize + fieldSize), .field (instrSize + fieldSize + regValSize)]
  | .consffrInstr =>
    [.field instrSize, .field (instrSize + fieldSize), .reg (instrSize + 2 * fieldSize),
      .byte (instrSize + 2 * fieldSize + regValSize)]
  | .consrrfInstr =>
    [.reg instrSize, .reg (instrSize + regValSize), .field (instrSize + 2 * regValSize)]
  | .consrfrInstr =>
    [.reg instrSize, .field (instrSize + regValSize), .reg (instrSize + regValSize + fieldSize),
      .byte (instrSize + regValSize + fieldSize + regValSize)]
  | .consfrrInstr =>
    [.byte instrSize, .field (instrSize + typeSize), .reg (instrSize + typeSize + fieldSize),
      .reg (instrSize + typeSize + fieldSize + regValSize),
      .byte (instrSize + typeSize + fieldSize + 2 * regValSize)]
  | .consfffInstr =>
    [.field instrSize, .field (instrSize + fieldSize), .field (instrSize + 2 * fieldSize)]
  | .remoteUpdateInstr =>
    [.reg instrSize, .byte (instrSize + regValSize),
      .byte (instrSize + regValSize + predicateSize),
      .byte (instrSize + regValSize + 2 * predicateSize),
      .byte (instrSize + regValSize + 2 * predicateSize + countSize)]
  | .literalConsInstr =>
    [.reg instrSize, .byte (literalConsBase - jumpSize - typeSize),
      .jump (literalConsBase - jumpSize)]
  | .nodeTypeInstr => [.reg instrSize, .int (instrSize + regValSize)]

end Instr

end Meld
