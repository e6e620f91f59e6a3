import O3jc.Library.Amd64

/-
This file embeds the `objc_msgSend` trampoline of `msg_send.rs` line by line.
-/

namespace O3jc

open Library

/-- The function that the trampoline calls. -/
inductive Lookup where
  | objcMsgLookupNonnull

/-- `objc_msgSend` saves the argument registers around the lookup and jumps to the IMP. -/
def objcMsgSend : List (Instr Lookup) := [
  .test .rdi .rdi,
  .jz 2,
  .sub .rsp 0xb8,
  .movStore .rsp 0x00 .rdi,
  .movStore .rsp 0x08 .rsi,
  .movStore .rsp 0x10 .rdx,
  .movStore .rsp 0x18 .rcx,
  .movStore .rsp 0x20 .r8,
  .movStore .rsp 0x28 .r9,
  .movapsStore .rsp 0x30 .xmm0,
  .movapsStore .rsp 0x40 .xmm1,
  .movapsStore .rsp 0x50 .xmm2,
  .movapsStore .rsp 0x60 .xmm3,
  .movapsStore .rsp 0x70 .xmm4,
  .movapsStore .rsp 0x80 .xmm5,
  .movapsStore .rsp 0x90 .xmm6,
  .movapsStore .rsp 0xa0 .xmm7,
  .call .objcMsgLookupNonnull,
  .mov .r11 .rax,
  .movLoad .rdi .rsp 0x00,
  .movLoad .rsi .rsp 0x08,
  .movLoad .rdx .rsp 0x10,
  .movLoad .rcx .rsp 0x18,
  .movLoad .r8 .rsp 0x20,
  .movLoad .r9 .rsp 0x28,
  .movapsLoad .xmm0 .rsp 0x30,
  .movapsLoad .xmm1 .rsp 0x40,
  .movapsLoad .xmm2 .rsp 0x50,
  .movapsLoad .xmm3 .rsp 0x60,
  .movapsLoad .xmm4 .rsp 0x70,
  .movapsLoad .xmm5 .rsp 0x80,
  .movapsLoad .xmm6 .rsp 0x90,
  .movapsLoad .xmm7 .rsp 0xa0,
  .add .rsp 0xb8,
  .jmp .r11,
  -- The nil receiver answers zero in every result register.
  .label 2,
  .xor32 .rax .rax,
  .xor32 .rdx .rdx,
  .pxor .xmm0 .xmm0,
  .pxor .xmm1 .xmm1,
  .ret]

end O3jc
