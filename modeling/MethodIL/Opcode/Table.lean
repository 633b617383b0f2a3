import MethodIL.Opcode.Basic
set_option autoImplicit false
set_option maxRecDepth 4000

/-!
# The instruction set

Every assigned opcode of the two code pages, in the order of their codes.  Codes that do not
appear are reserved.
-/

namespace MethodIL

/-- The opcodes of one byte. -/
def OpcodeRow.single : List OpcodeRow :=
  [⟨.single, 0x00, "nop", .none, .fixed 0, .fixed 0, .sequential⟩,
   ⟨.single, 0x01, "break", .none, .fixed 0, .fixed 0, .sequential⟩,
   ⟨.single, 0x02, "ldarg.0", .none, .fixed 0, .fixed 1, .sequential⟩,
   ⟨.single, 0x03, "ldarg.1", .none, .fixed 0, .fixed 1, .sequential⟩,
   ⟨.single, 0x04, "ldarg.2", .none, .fixed 0, .fixed 1, .sequential⟩,
   ⟨.single, 0x05, "ldarg.3", .none, .fixed 0, .fixed 1, .sequential⟩,
   ⟨.single, 0x06, "ldloc.0", .none, .fixed 0, .fixed 1, .sequential⟩,
   ⟨.single, 0x07, "ldloc.1", .none, .fixed 0, .fixed 1, .sequential⟩,
   ⟨.single, 0x08, "ldloc.2", .none, .fixed 0, .fixed 1, .sequential⟩,
   ⟨.single, 0x09, "ldloc.3", .none, .fixed 0, .fixed 1, .sequential⟩,
   ⟨.single, 0x0A, "stloc.0", .none, .fixed 1, .fixed 0, .sequential⟩,
   ⟨.single, 0x0B, "stloc.1", .none, .fixed 1, .fixed 0, .sequential⟩,
   ⟨.single, 0x0C, "stloc.2", .none, .fixed 1, .fixed 0, .sequential⟩,
   ⟨.single, 0x0D, "stloc.3", .none, .fixed 1, .fixed 0, .sequential⟩,
   ⟨.single, 0x0E, "ldarg.s", .uint8, .fixed 0, .fixed 1, .sequential⟩,
   ⟨.single, 0x0F, "ldarga.s", .uint8, .fixed 0, .fixed 1, .sequential⟩,
   ⟨.single, 0x10, "starg.s", .uint8, .fixed 1, .fixed 0, .sequential⟩,
   ⟨.single, 0x11, "ldloc.s", .uint8, .fixed 0, .fixed 1, .sequential⟩,
   ⟨.single, 0x12, "ldloca.s", .uint8, .fixed 0, .fixed 1, .sequential⟩,
   ⟨.single, 0x13, "stloc.s", .uint8, .fixed 1, .fixed 0, .sequential⟩,
   ⟨.single, 0x14, "ldnull", .none, .fixed 0, .fixed 1, .sequential⟩,
   ⟨.single, 0x15, "ldc.i4.m1", .none, .fixed 0, .fixed 1, .sequential⟩,
   ⟨.single, 0x16, "ldc.i4.0", .none, .fixed 0, .fixed 1, .sequential⟩,
   ⟨.single, 0x17, "ldc.i4.1", .none, .fixed 0, .fixed 1, .sequential⟩,
   ⟨.single, 0x18, "ldc.i4.2", .none, .fixed 0, .fixed 1, .sequential⟩,
   ⟨.single, 0x19, "ldc.i4.3", .none, .fixed 0, .fixed 1, .sequential⟩,
   ⟨.single, 0x1A, "ldc.i4.4", .none, .fixed 0, .fixed 1, .sequential⟩,
   ⟨.single, 0x1B, "ldc.i4.5", .none, .fixed 0, .fixed 1, .sequential⟩,
   ⟨.single, 0x1C, "ldc.i4.6", .none, .fixed 0, .fixed 1, .sequential⟩,
   ⟨.single, 0x1D, "ldc.i4.7", .none, .fixed 0, .fixed 1, .sequential⟩,
   ⟨.single, 0x1E, "ldc.i4.8", .none, .fixed 0, .fixed 1, .sequential⟩,
   ⟨.single, 0x1F, "ldc.i4.s", .int8, .fixed 0, .fixed 1, .sequential⟩,
   ⟨.single, 0x20, "ldc.i4", .int32, .fixed 0, .fixed 1, .sequential⟩,
   ⟨.single, 0x21, "ldc.i8", .int64, .fixed 0, .fixed 1, .sequential⟩,
   ⟨.single, 0x22, "ldc.r4", .float32, .fixed 0, .fixed 1, .sequential⟩,
   ⟨.single, 0x23, "ldc.r8", .float64, .fixed 0, .fixed 1, .sequential⟩,
   ⟨.single, 0x25, "dup", .none, .fixed 1, .fixed 2, .sequential⟩,
   ⟨.single, 0x26, "pop", .none, .fixed 1, .fixed 0, .sequential⟩,
   ⟨.single, 0x27, "jmp", .token, .fixed 0, .fixed 0, .methodReturn⟩,
   ⟨.single, 0x28, "call", .token, .arguments, .result, .call⟩,
   ⟨.single, 0x29, "calli", .token, .arguments, .result, .call⟩,
   ⟨.single, 0x2A, "ret", .none, .returned, .fixed 0, .methodReturn⟩,
   ⟨.single, 0x2B, "br.s", .shortBranch, .fixed 0, .fixed 0, .unconditionalBranch⟩,
   ⟨.single, 0x2C, "brfalse.s", .shortBranch, .fixed 1, .fixed 0, .conditionalBranch⟩,
   ⟨.single, 0x2D, "brtrue.s", .shortBranch, .fixed 1, .fixed 0, .conditionalBranch⟩,
   ⟨.single, 0x2E, "beq.s", .shortBranch, .fixed 2, .fixed 0, .conditionalBranch⟩,
   ⟨.single, 0x2F, "bge.s", .shortBranch, .fixed 2, .fixed 0, .conditionalBranch⟩,
   ⟨.single, 0x30, "bgt.s", .shortBranch, .fixed 2, .fixed 0, .conditionalBranch⟩,
   ⟨.single, 0x31, "ble.s", .shortBranch, .fixed 2, .fixed 0, .conditionalBranch⟩,
   ⟨.single, 0x32, "blt.s", .shortBranch, .fixed 2, .fixed 0, .conditionalBranch⟩,
   ⟨.single, 0x33, "bne.un.s", .shortBranch, .fixed 2, .fixed 0, .conditionalBranch⟩,
   ⟨.single, 0x34, "bge.un.s", .shortBranch, .fixed 2, .fixed 0, .conditionalBranch⟩,
   ⟨.single, 0x35, "bgt.un.s", .shortBranch, .fixed 2, .fixed 0, .conditionalBranch⟩,
   ⟨.single, 0x36, "ble.un.s", .shortBranch, .fixed 2, .fixed 0, .conditionalBranch⟩,
   ⟨.single, 0x37, "blt.un.s", .shortBranch, .fixed 2, .fixed 0, .conditionalBranch⟩,
   ⟨.single, 0x38, "br", .branch, .fixed 0, .fixed 0, .unconditionalBranch⟩,
   ⟨.single, 0x39, "brfalse", .branch, .fixed 1, .fixed 0, .conditionalBranch⟩,
   ⟨.single, 0x3A, "brtrue", .branch, .fixed 1, .fixed 0, .conditionalBranch⟩,
   ⟨.single, 0x3B, "beq", .branch, .fixed 2, .fixed 0, .conditionalBranch⟩,
   ⟨.single, 0x3C, "bge", .branch, .fixed 2, .fixed 0, .conditionalBranch⟩,
   ⟨.single, 0x3D, "bgt", .branch, .fixed 2, .fixed 0, .conditionalBranch⟩,
   ⟨.single, 0x3E, "ble", .branch, .fixed 2, .fixed 0, .conditionalBranch⟩,
   ⟨.single, 0x3F, "blt", .branch, .fixed 2, .fixed 0, .conditionalBranch⟩,
   ⟨.single, 0x40, "bne.un", .branch, .fixed 2, .fixed 0, .conditionalBranch⟩,
   ⟨.single, 0x41, "bge.un", .branch, .fixed 2, .fixed 0, .conditionalBranch⟩,
   ⟨.single, 0x42, "bgt.un", .branch, .fixed 2, .fixed 0, .conditionalBranch⟩,
   ⟨.single, 0x43, "ble.un", .branch, .fixed 2, .fixed 0, .conditionalBranch⟩,
   ⟨.single, 0x44, "blt.un", .branch, .fixed 2, .fixed 0, .conditionalBranch⟩,
   ⟨.single, 0x45, "switch", .switch, .fixed 1, .fixed 0, .switch⟩,
   ⟨.single, 0x46, "ldind.i1", .none, .fixed 1, .fixed 1, .sequential⟩,
   ⟨.single, 0x47, "ldind.u1", .none, .fixed 1, .fixed 1, .sequential⟩,
   ⟨.single, 0x48, "ldind.i2", .none, .fixed 1, .fixed 1, .sequential⟩,
   ⟨.single, 0x49, "ldind.u2", .none, .fixed 1, .fixed 1, .sequential⟩,
   ⟨.single, 0x4A, "ldind.i4", .none, .fixed 1, .fixed 1, .sequential⟩,
   ⟨.single, 0x4B, "ldind.u4", .none, .fixed 1, .fixed 1, .sequential⟩,
   ⟨.single, 0x4C, "ldind.i8", .none, .fixed 1, .fixed 1, .sequential⟩,
   ⟨.single, 0x4D, "ldind.i", .none, .fixed 1, .fixed 1, .sequential⟩,
   ⟨.single, 0x4E, "ldind.r4", .none, .fixed 1, .fixed 1, .sequential⟩,
   ⟨.single, 0x4F, "ldind.r8", .none, .fixed 1, .fixed 1, .sequential⟩,
   ⟨.single, 0x50, "ldind.ref", .none, .fixed 1, .fixed 1, .sequential⟩,
   ⟨.single, 0x51, "stind.ref", .none, .fixed 2, .fixed 0, .sequential⟩,
   ⟨.single, 0x52, "stind.i1", .none, .fixed 2, .fixed 0, .sequential⟩,
   ⟨.single, 0x53, "stind.i2", .none, .fixed 2, .fixed 0, .sequential⟩,
   ⟨.single, 0x54, "stind.i4", .none, .fixed 2, .fixed 0, .sequential⟩,
   ⟨.single, 0x55, "stind.i8", .none, .fixed 2, .fixed 0, .sequential⟩,
   ⟨.single, 0x56, "stind.r4", .none, .fixed 2, .fixed 0, .sequential⟩,
   ⟨.single, 0x57, "stind.r8", .none, .fixed 2, .fixed 0, .sequential⟩,
   ⟨.single, 0x58, "add", .none, .fixed 2, .fixed 1, .sequential⟩,
   ⟨.single, 0x59, "sub", .none, .fixed 2, .fixed 1, .sequential⟩,
   ⟨.single, 0x5A, "mul", .none, .fixed 2, .fixed 1, .sequential⟩,
   ⟨.single, 0x5B, "div", .none, .fixed 2, .fixed 1, .sequential⟩,
   ⟨.single, 0x5C, "div.un", .none, .fixed 2, .fixed 1, .sequential⟩,
   ⟨.single, 0x5D, "rem", .none, .fixed 2, .fixed 1, .sequential⟩,
   ⟨.single, 0x5E, "rem.un", .none, .fixed 2, .fixed 1, .sequential⟩,
   ⟨.single, 0x5F, "and", .none, .fixed 2, .fixed 1, .sequential⟩,
   ⟨.single, 0x60, "or", .none, .fixed 2, .fixed 1, .sequential⟩,
   ⟨.single, 0x61, "xor", .none, .fixed 2, .fixed 1, .sequential⟩,
   ⟨.single, 0x62, "shl", .none, .fixed 2, .fixed 1, .sequential⟩,
   ⟨.single, 0x63, "shr", .none, .fixed 2, .fixed 1, .sequential⟩,
   ⟨.single, 0x64, "shr.un", .none, .fixed 2, .fixed 1, .sequential⟩,
   ⟨.single, 0x65, "neg", .none, .fixed 1, .fixed 1, .sequential⟩,
   ⟨.single, 0x66, "not", .none, .fixed 1, .fixed 1, .sequential⟩,
   ⟨.single, 0x67, "conv.i1", .none, .fixed 1, .fixed 1, .sequential⟩,
   ⟨.single, 0x68, "conv.i2", .none, .fixed 1, .fixed 1, .sequential⟩,
   ⟨.single, 0x69, "conv.i4", .none, .fixed 1, .fixed 1, .sequential⟩,
   ⟨.single, 0x6A, "conv.i8", .none, .fixed 1, .fixed 1, .sequential⟩,
   ⟨.single, 0x6B, "conv.r4", .none, .fixed 1, .fixed 1, .sequential⟩,
   ⟨.single, 0x6C, "conv.r8", .none, .fixed 1, .fixed 1, .sequential⟩,
   ⟨.single, 0x6D, "conv.u4", .none, .fixed 1, .fixed 1, .sequential⟩,
   ⟨.single, 0x6E, "conv.u8", .none, .fixed 1, .fixed 1, .sequential⟩,
   ⟨.single, 0x6F, "callvirt", .token, .arguments, .result, .call⟩,
   ⟨.single, 0x70, "cpobj", .token, .fixed 2, .fixed 0, .sequential⟩,
   ⟨.single, 0x71, "ldobj", .token, .fixed 1, .fixed 1, .sequential⟩,
   ⟨.single, 0x72, "ldstr", .token, .fixed 0, .fixed 1, .sequential⟩,
   ⟨.single, 0x73, "newobj", .token, .arguments, .fixed 1, .call⟩,
   ⟨.single, 0x74, "castclass", .token, .fixed 1, .fixed 1, .sequential⟩,
   ⟨.single, 0x75, "isinst", .token, .fixed 1, .fixed 1, .sequential⟩,
   ⟨.single, 0x76, "conv.r.un", .none, .fixed 1, .fixed 1, .sequential⟩,
   ⟨.single, 0x79, "unbox", .token, .fixed 1, .fixed 1, .sequential⟩,
   ⟨.single, 0x7A, "throw", .none, .fixed 1, .fixed 0, .raise⟩,
   ⟨.single, 0x7B, "ldfld", .token, .fixed 1, .fixed 1, .sequential⟩,
   ⟨.single, 0x7C, "ldflda", .token, .fixed 1, .fixed 1, .sequential⟩,
   ⟨.single, 0x7D, "stfld", .token, .fixed 2, .fixed 0, .sequential⟩,
   ⟨.single, 0x7E, "ldsfld", .token, .fixed 0, .fixed 1, .sequential⟩,
   ⟨.single, 0x7F, "ldsflda", .token, .fixed 0, .fixed 1, .sequential⟩,
   ⟨.single, 0x80, "stsfld", .token, .fixed 1, .fixed 0, .sequential⟩,
   ⟨.single, 0x81, "stobj", .token, .fixed 2, .fixed 0, .sequential⟩,
   ⟨.single, 0x82, "conv.ovf.i1.un", .none, .fixed 1, .fixed 1, .sequential⟩,
   ⟨.single, 0x83, "conv.ovf.i2.un", .none, .fixed 1, .fixed 1, .sequential⟩,
   ⟨.single, 0x84, "conv.ovf.i4.un", .none, .fixed 1, .fixed 1, .sequential⟩,
   ⟨.single, 0x85, "conv.ovf.i8.un", .none, .fixed 1, .fixed 1, .sequential⟩,
   ⟨.single, 0x86, "conv.ovf.u1.un", .none, .fixed 1, .fixed 1, .sequential⟩,
   ⟨.single, 0x87, "conv.ovf.u2.un", .none, .fixed 1, .fixed 1, .sequential⟩,
   ⟨.single, 0x88, "conv.ovf.u4.un", .none, .fixed 1, .fixed 1, .sequential⟩,
   ⟨.single, 0x89, "conv.ovf.u8.un", .none, .fixed 1, .fixed 1, .sequential⟩,
   ⟨.single, 0x8A, "conv.ovf.i.un", .none, .fixed 1, .fixed 1, .sequential⟩,
   ⟨.single, 0x8B, "conv.ovf.u.un", .none, .fixed 1, .fixed 1, .sequential⟩,
   ⟨.single, 0x8C, "box", .token, .fixed 1, .fixed 1, .sequential⟩,
   ⟨.single, 0x8D, "newarr", .token, .fixed 1, .fixed 1, .sequential⟩,
   ⟨.single, 0x8E, "ldlen", .none, .fixed 1, .fixed 1, .sequential⟩,
   ⟨.single, 0x8F, "ldelema", .token, .fixed 2, .fixed 1, .sequential⟩,
   ⟨.single, 0x90, "ldelem.i1", .none, .fixed 2, .fixed 1, .sequential⟩,
   ⟨.single, 0x91, "ldelem.u1", .none, .fixed 2, .fixed 1, .sequential⟩,
   ⟨.single, 0x92, "ldelem.i2", .none, .fixed 2, .fixed 1, .sequential⟩,
   ⟨.single, 0x93, "ldelem.u2", .none, .fixed 2, .fixed 1, .sequential⟩,
   ⟨.single, 0x94, "ldelem.i4", .none, .fixed 2, .fixed 1, .sequential⟩,
   ⟨.single, 0x95, "ldelem.u4", .none, .fixed 2, .fixed 1, .sequential⟩,
   ⟨.single, 0x96, "ldelem.i8", .none, .fixed 2, .fixed 1, .sequential⟩,
   ⟨.single, 0x97, "ldelem.i", .none, .fixed 2, .fixed 1, .sequential⟩,
   ⟨.single, 0x98, "ldelem.r4", .none, .fixed 2, .fixed 1, .sequential⟩,
   ⟨.single, 0x99, "ldelem.r8", .none, .fixed 2, .fixed 1, .sequential⟩,
   ⟨.single, 0x9A, "ldelem.ref", .none, .fixed 2, .fixed 1, .sequential⟩,
   ⟨.single, 0x9B, "stelem.i", .none, .fixed 3, .fixed 0, .sequential⟩,
   ⟨.single, 0x9C, "stelem.i1", .none, .fixed 3, .fixed 0, .sequential⟩,
   ⟨.single, 0x9D, "stelem.i2", .none, .fixed 3, .fixed 0, .sequential⟩,
   ⟨.single, 0x9E, "stelem.i4", .none, .fixed 3, .fixed 0, .sequential⟩,
   ⟨.single, 0x9F, "stelem.i8", .none, .fixed 3, .fixed 0, .sequential⟩,
   ⟨.single, 0xA0, "stelem.r4", .none, .fixed 3, .fixed 0, .sequential⟩,
   ⟨.single, 0xA1, "stelem.r8", .none, .fixed 3, .fixed 0, .sequential⟩,
   ⟨.single, 0xA2, "stelem.ref", .none, .fixed 3, .fixed 0, .sequential⟩,
   ⟨.single, 0xA3, "ldelem", .token, .fixed 2, .fixed 1, .sequential⟩,
   ⟨.single, 0xA4, "stelem", .token, .fixed 3, .fixed 0, .sequential⟩,
   ⟨.single, 0xA5, "unbox.any", .token, .fixed 1, .fixed 1, .sequential⟩,
   ⟨.single, 0xB3, "conv.ovf.i1", .none, .fixed 1, .fixed 1, .sequential⟩,
   ⟨.single, 0xB4, "conv.ovf.u1", .none, .fixed 1, .fixed 1, .sequential⟩,
   ⟨.single, 0xB5, "conv.ovf.i2", .none, .fixed 1, .fixed 1, .sequential⟩,
   ⟨.single, 0xB6, "conv.ovf.u2", .none, .fixed 1, .fixed 1, .sequential⟩,
   ⟨.single, 0xB7, "conv.ovf.i4", .none, .fixed 1, .fixed 1, .sequential⟩,
   ⟨.single, 0xB8, "conv.ovf.u4", .none, .fixed 1, .fixed 1, .sequential⟩,
   ⟨.single, 0xB9, "conv.ovf.i8", .none, .fixed 1, .fixed 1, .sequential⟩,
   ⟨.single, 0xBA, "conv.ovf.u8", .none, .fixed 1, .fixed 1, .sequential⟩,
   ⟨.single, 0xC2, "refanyval", .token, .fixed 1, .fixed 1, .sequential⟩,
   ⟨.single, 0xC3, "ckfinite", .none, .fixed 1, .fixed 1, .sequential⟩,
   ⟨.single, 0xC6, "mkrefany", .token, .fixed 1, .fixed 1, .sequential⟩,
   ⟨.single, 0xD0, "ldtoken", .token, .fixed 0, .fixed 1, .sequential⟩,
   ⟨.single, 0xD1, "conv.u2", .none, .fixed 1, .fixed 1, .sequential⟩,
   ⟨.single, 0xD2, "conv.u1", .none, .fixed 1, .fixed 1, .sequential⟩,
   ⟨.single, 0xD3, "conv.i", .none, .fixed 1, .fixed 1, .sequential⟩,
   ⟨.single, 0xD4, "conv.ovf.i", .none, .fixed 1, .fixed 1, .sequential⟩,
   ⟨.single, 0xD5, "conv.ovf.u", .none, .fixed 1, .fixed 1, .sequential⟩,
   ⟨.single, 0xD6, "add.ovf", .none, .fixed 2, .fixed 1, .sequential⟩,
   ⟨.single, 0xD7, "add.ovf.un", .none, .fixed 2, .fixed 1, .sequential⟩,
   ⟨.single, 0xD8, "mul.ovf", .none, .fixed 2, .fixed 1, .sequential⟩,
   ⟨.single, 0xD9, "mul.ovf.un", .none, .fixed 2, .fixed 1, .sequential⟩,
   ⟨.single, 0xDA, "sub.ovf", .none, .fixed 2, .fixed 1, .sequential⟩,
   ⟨.single, 0xDB, "sub.ovf.un", .none, .fixed 2, .fixed 1, .sequential⟩,
   ⟨.single, 0xDC, "endfinally", .none, .fixed 0, .fixed 0, .endFinally⟩,
   ⟨.single, 0xDD, "leave", .branch, .everything, .fixed 0, .leave⟩,
   ⟨.single, 0xDE, "leave.s", .shortBranch, .everything, .fixed 0, .leave⟩,
   ⟨.single, 0xDF, "stind.i", .none, .fixed 2, .fixed 0, .sequential⟩,
   ⟨.single, 0xE0, "conv.u", .none, .fixed 1, .fixed 1, .sequential⟩]

/-- The opcodes behind `0xFE`. -/
def OpcodeRow.extended : List OpcodeRow :=
  [⟨.extended, 0x00, "arglist", .none, .fixed 0, .fixed 1, .sequential⟩,
   ⟨.extended, 0x01, "ceq", .none, .fixed 2, .fixed 1, .sequential⟩,
   ⟨.extended, 0x02, "cgt", .none, .fixed 2, .fixed 1, .sequential⟩,
   ⟨.extended, 0x03, "cgt.un", .none, .fixed 2, .fixed 1, .sequential⟩,
   ⟨.extended, 0x04, "clt", .none, .fixed 2, .fixed 1, .sequential⟩,
   ⟨.extended, 0x05, "clt.un", .none, .fixed 2, .fixed 1, .sequential⟩,
   ⟨.extended, 0x06, "ldftn", .token, .fixed 0, .fixed 1, .sequential⟩,
   ⟨.extended, 0x07, "ldvirtftn", .token, .fixed 1, .fixed 1, .sequential⟩,
   ⟨.extended, 0x09, "ldarg", .uint16, .fixed 0, .fixed 1, .sequential⟩,
   ⟨.extended, 0x0A, "ldarga", .uint16, .fixed 0, .fixed 1, .sequential⟩,
   ⟨.extended, 0x0B, "starg", .uint16, .fixed 1, .fixed 0, .sequential⟩,
   ⟨.extended, 0x0C, "ldloc", .uint16, .fixed 0, .fixed 1, .sequential⟩,
   ⟨.extended, 0x0D, "ldloca", .uint16, .fixed 0, .fixed 1, .sequential⟩,
   ⟨.extended, 0x0E, "stloc", .uint16, .fixed 1, .fixed 0, .sequential⟩,
   ⟨.extended, 0x0F, "localloc", .none, .fixed 1, .fixed 1, .sequential⟩,
   ⟨.extended, 0x11, "endfilter", .none, .fixed 1, .fixed 0, .endFilter⟩,
   ⟨.extended, 0x12, "unaligned.", .uint8, .fixed 0, .fixed 0, .modifier⟩,
   ⟨.extended, 0x13, "volatile.", .none, .fixed 0, .fixed 0, .modifier⟩,
   ⟨.extended, 0x14, "tail.", .none, .fixed 0, .fixed 0, .modifier⟩,
   ⟨.extended, 0x15, "initobj", .token, .fixed 1, .fixed 0, .sequential⟩,
   ⟨.extended, 0x16, "constrained.", .token, .fixed 0, .fixed 0, .modifier⟩,
   ⟨.extended, 0x17, "cpblk", .none, .fixed 3, .fixed 0, .sequential⟩,
   ⟨.extended, 0x18, "initblk", .none, .fixed 3, .fixed 0, .sequential⟩,
   ⟨.extended, 0x19, "no.", .uint8, .fixed 0, .fixed 0, .modifier⟩,
   ⟨.extended, 0x1A, "rethrow", .none, .fixed 0, .fixed 0, .raise⟩,
   ⟨.extended, 0x1C, "sizeof", .token, .fixed 0, .fixed 1, .sequential⟩,
   ⟨.extended, 0x1D, "refanytype", .none, .fixed 1, .fixed 1, .sequential⟩,
   ⟨.extended, 0x1E, "readonly.", .none, .fixed 0, .fixed 0, .modifier⟩]

/-- All assigned opcodes. -/
def OpcodeRow.table : List OpcodeRow :=
  OpcodeRow.single ++ OpcodeRow.extended

end MethodIL
