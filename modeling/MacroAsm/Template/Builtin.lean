import MacroAsm.Template

set_option autoImplicit false

/-! # Built-in templates

The templates that are used unless a directory holds others of the same file names: one for each
language that needs a frame around the code. -/

namespace MacroAsm

namespace Template

/-- The frame of a program in C. -/
def builtinC : List String :=
  ["// MCCPU program, C target",
   "",
   "#include <stdio.h>",
   "#include <stdlib.h>",
   "",
   "#define MEMORY_SIZE %memory_size",
   "#define STACK_SIZE %stack_size",
   "#define REGISTER_COUNT %register_count",
   "#define byte unsigned char",
   "",
   "int main(void)",
   "\x7b",
   "    byte* memory = calloc(MEMORY_SIZE, sizeof(byte));",
   "    if (memory == NULL)",
   "    \x7b",
   "        return -1;",
   "    \x7d",
   "    byte stack[STACK_SIZE] = \x7b0\x7d;",
   "    byte registers[REGISTER_COUNT] = \x7b0\x7d;",
   "    %code",
   "    free(memory);",
   "    return 0;",
   "\x7d"]

/-- The frame of a program in C#. -/
def builtinCSharp : List String :=
  ["using System;",
   "",
   "namespace MCCPU",
   "\x7b",
   "    public class Program",
   "    \x7b",
   "        private const int MEMORY_SIZE = %memory_size;",
   "        private const int STACK_SIZE = %stack_size;",
   "        private const int REGISTER_COUNT = %register_count;",
   "",
   "        public static void Main(string[] args)",
   "        \x7b",
   "            Span<byte> stack = stackalloc byte[STACK_SIZE];",
   "            Span<byte> registers = stackalloc byte[REGISTER_COUNT];",
   "            byte[] memory = new byte[MEMORY_SIZE];",
   "            %code",
   "        \x7d",
   "    \x7d",
   "\x7d"]

/-- The frame of a program for an x86-64 assembler: the arrays, the entry, and the routines that the
    code calls. -/
def builtinNasm : List String :=
  ["; MCCPU program, NASM x86-64 target (System V, link with libc)",
   "",
   "%define MEMORY_SIZE %memory_size",
   "%define STACK_SIZE %stack_size",
   "%define REGISTER_COUNT %register_count",
   "",
   "default rel",
   "",
   "extern printf",
   "global main",
   "",
   "section .bss",
   "    memory:    resb MEMORY_SIZE",
   "    stack:     resb STACK_SIZE",
   "    registers: resb REGISTER_COUNT",
   "",
   "section .rodata",
   "    out_fmt: db \"%d\", 10, 0",
   "",
   "section .text",
   "",
   "main:",
   "    push rbx",
   "    push r12",
   "    push r13",
   "    xor r12d, r12d                      ; emulated stack pointer",
   "    jmp mccpu_program",
   "",
   "mccpu_end:",
   "    xor eax, eax",
   "    pop r13",
   "    pop r12",
   "    pop rbx",
   "    ret",
   "",
   "; rbx = target pc, jump through the ROM table or stop when out of ROM",
   "mccpu_dispatch:",
   "    cmp rbx, ROM_SIZE",
   "    jae mccpu_end",
   "    lea rcx, [rom_table]",
   "    jmp [rcx + rbx * 8]",
   "",
   "; push al onto the emulated stack",
   "mccpu_push:",
   "    lea rcx, [stack]",
   "    mov [rcx + r12], al",
   "    inc r12",
   "    cmp r12, STACK_SIZE",
   "    jb .done",
   "    xor r12d, r12d",
   ".done:",
   "    ret",
   "",
   "; pop the emulated stack into al",
   "mccpu_pop:",
   "    test r12, r12",
   "    jnz .dec",
   "    mov r12, STACK_SIZE",
   ".dec:",
   "    dec r12",
   "    lea rcx, [stack]",
   "    mov al, [rcx + r12]",
   "    ret",
   "",
   "; print edi as decimal",
   "mccpu_out:",
   "    push rbp",
   "    mov rbp, rsp",
   "    and rsp, -16",
   "    mov esi, edi",
   "    lea rdi, [out_fmt]",
   "    xor eax, eax",
   "    call printf wrt ..plt",
   "    mov rsp, rbp",
   "    pop rbp",
   "    ret",
   "",
   "mccpu_program:",
   "    %code"]

/-- The built-in templates by file name. -/
def builtins : List (String × List String) :=
  [("C.c", builtinC), ("CSharp.cs", builtinCSharp), ("nasm-x64.asm", builtinNasm)]

/-- The text of a built-in template. -/
def builtin? (file : String) : Option String :=
  (builtins.find? fun b => b.1 == file).map fun b => String.join (b.2.map (· ++ "\n"))

/-- The template of a file name: the file of that name in a directory, where there is one, or else the
    built-in template. -/
def load (t : FileTree) (file : String) (directory : Option String) : Except Failure Template :=
  match (directory.map fun d => Path.join d file).filter t.isFile with
  | some path =>
    match t.read path with
    | .ok text => ofText path text
    | .error e => .error (.cannotOpen path e)
  | none =>
    match builtin? file with
    | some text => ofText file text
    | none => .error (.badSetting (.noTemplate file))

end Template

end MacroAsm
