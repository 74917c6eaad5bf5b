import ElfFormat.Label

/-!
# Names of tags and flags

The tags that have names, kind by kind, as the ELF specification and its usual extensions give
them, and the few among them that decoding itself asks about.
-/

namespace ElfFormat

namespace Names

/-- Names of the types of object files. -/
def objectTypes : NameTable :=
  [(0, "ET_NONE"), (1, "ET_REL"), (2, "ET_EXEC"), (3, "ET_DYN"), (4, "ET_CORE")]

/-- Names of the machines that object files are for. -/
def machines : NameTable :=
  [(0, "EM_NONE"), (1, "EM_M32"), (2, "EM_SPARC"), (3, "EM_386"), (4, "EM_68K"), (5, "EM_88K"),
    (7, "EM_860"), (8, "EM_MIPS"), (20, "EM_PPC"), (21, "EM_PPC64"), (22, "EM_S390"),
    (40, "EM_ARM"), (43, "EM_SPARCV9"), (50, "EM_IA_64"), (62, "EM_X86_64"), (80, "EM_MMIX"),
    (183, "EM_AARCH64"), (185, "EM_AVR32"), (190, "EM_CUDA"), (243, "EM_RISCV"),
    (258, "EM_LOONGARCH")]

/-- Names of the operating system interfaces. -/
def osAbis : NameTable :=
  [(0, "ELFOSABI_SYSV"), (1, "ELFOSABI_HPUX"), (2, "ELFOSABI_NETBSD"), (3, "ELFOSABI_GNU"),
    (4, "ELFOSABI_HURD"), (5, "ELFOSABI_86OPEN"), (6, "ELFOSABI_SOLARIS"), (7, "ELFOSABI_AIX"),
    (8, "ELFOSABI_IRIX"), (9, "ELFOSABI_FREEBSD"), (10, "ELFOSABI_TRU64"),
    (11, "ELFOSABI_MODESTO"), (12, "ELFOSABI_OPENBSD"), (13, "ELFOSABI_OPENVMS"),
    (14, "ELFOSABI_NSK"), (15, "ELFOSABI_AROS"), (16, "ELFOSABI_FENIXOS"),
    (64, "ELFOSABI_ARM_AEABI"), (97, "ELFOSABI_ARM"), (255, "ELFOSABI_STANDALONE")]

/-- Names of the types of sections, those of the operating systems and machines among them. -/
def sectionTypes : NameTable :=
  [(0, "SHT_NULL"), (1, "SHT_PROGBITS"), (2, "SHT_SYMTAB"), (3, "SHT_STRTAB"), (4, "SHT_RELA"),
    (5, "SHT_HASH"), (6, "SHT_DYNAMIC"), (7, "SHT_NOTE"), (8, "SHT_NOBITS"), (9, "SHT_REL"),
    (10, "SHT_SHLIB"), (11, "SHT_DYNSYM"), (14, "SHT_INIT_ARRAY"), (15, "SHT_FINI_ARRAY"),
    (16, "SHT_PREINIT_ARRAY"), (17, "SHT_GROUP"), (18, "SHT_SYMTAB_SHNDX"), (19, "SHT_NUM"),
    (0x60000000, "SHT_QNXREL"), (0x6ffffff5, "SHT_GNU_ATTRIBUTES"), (0x6ffffff6, "SHT_GNU_HASH"),
    (0x6ffffff7, "SHT_GNU_LIBLIST"), (0x6ffffff8, "SHT_GNU_CHECKSUM"),
    (0x6ffffffd, "SHT_GNU_VERDEF"), (0x6ffffffe, "SHT_GNU_VERNEED"),
    (0x6fffffff, "SHT_GNU_VERSYM"), (0x70000001, "SHT_ARM_EXIDX"),
    (0x70000002, "SHT_ARM_PREEMPTMAP"), (0x70000003, "SHT_ARM_ATTRIBUTES")]

def segmentTypes : NameTable :=
  [(0, "PT_NULL"), (1, "PT_LOAD"), (2, "PT_DYNAMIC"), (3, "PT_INTERP"), (4, "PT_NOTE"),
    (5, "PT_SHLIB"), (6, "PT_PHDR"), (7, "PT_TLS"), (0x6474e550, "PT_GNU_EH_FRAME"),
    (0x6474e551, "PT_GNU_STACK"), (0x6474e552, "PT_GNU_RELRO"), (0x6474e553, "PT_GNU_PROPERTY"),
    (0x6ffffffa, "PT_SUNWBSS"), (0x6ffffffb, "PT_SUNWSTACK")]

/-- Names of the types of notes that the owner `GNU` defines. -/
def gnuNotes : NameTable :=
  [(1, "NT_GNU_ABI_TAG"), (2, "NT_GNU_HWCAP"), (3, "NT_GNU_BUILD_ID"),
    (4, "NT_GNU_GOLD_VERSION"), (5, "NT_GNU_PROPERTY_TYPE_0")]

/-- Names of the types of notes in core files. -/
def coreNotes : NameTable :=
  [(1, "NT_PRSTATUS"), (2, "NT_PRFPREG"), (3, "NT_PRPSINFO"), (4, "NT_TASKSTRUCT"),
    (6, "NT_AUXV"), (0x53494749, "NT_SIGINFO"), (0x46494c45, "NT_FILE"),
    (0x46e62b7f, "NT_PRXFPREG")]

/-- The types of notes mean what their owner says. -/
def noteTypes (owner : String) : NameTable :=
  if owner = "GNU" then gnuNotes
  else if owner = "CORE" ∨ owner = "LINUX" then coreNotes
  else []

def symbolBindings : NameTable :=
  [(0, "LOCAL"), (1, "GLOBAL"), (2, "WEAK")]

def symbolTypes : NameTable :=
  [(0, "NOTYPE"), (1, "OBJECT"), (2, "FUNC"), (3, "SECTION"), (4, "FILE"), (5, "COMMON"),
    (6, "TLS"), (7, "NUM")]

def symbolVisibilities : NameTable :=
  [(0, "DEFAULT"), (1, "INTERNAL"), (2, "HIDDEN"), (3, "PROTECTED")]

/-- The reserved section indices that a symbol may name. -/
def reservedIndices : NameTable :=
  [(0xfff1, "ABS"), (0xfff2, "COMMON")]

/-- Names of the flags of sections, by bit. -/
def sectionFlags : FlagTable :=
  [(0, "WRITE"), (1, "ALLOC"), (2, "EXEC"), (4, "MERGE"), (5, "STRINGS"), (6, "INFO_LINK"),
    (7, "LINK_ORDER"), (8, "OS_NONCONFORMING"), (9, "GROUP"), (10, "TLS"), (11, "COMPRESSED")]

def segmentFlags : FlagTable :=
  [(0, "PF_X"), (1, "PF_W"), (2, "PF_R")]

end Names

namespace ObjectType

/-- The type of shared objects, and of programs that may be placed anywhere. -/
def sharedObject : UInt16 := 3

end ObjectType

namespace SectionType

/-- A record that describes no section. -/
def null : UInt32 := 0

/-- All symbols of the file. -/
def symbolTable : UInt32 := 2

/-- Strings, such as the names of sections or symbols. -/
def stringTable : UInt32 := 3

def note : UInt32 := 7

/-- Memory that starts as zeros and has no bytes in the file. -/
def noBits : UInt32 := 8

/-- The symbols that the running program needs. -/
def dynamicSymbols : UInt32 := 11

end SectionType

namespace SegmentType

/-- A part of the file that is loaded into memory. -/
def load : UInt32 := 1

/-- The path of the program that loads this one. -/
def interpreter : UInt32 := 3

/-- Notes, as in a section of notes. -/
def note : UInt32 := 4

end SegmentType

namespace SectionIndex

/-- The symbol is defined in another file. -/
def undefined : UInt16 := 0

/-- The first index that names no section but has a meaning of its own. -/
def firstReserved : UInt16 := 0xff00

/-- The index did not fit and stands in the first section header. -/
def extended : UInt16 := 0xffff

end SectionIndex

/-- The number of program headers did not fit and stands in the first section header. -/
def extendedProgramCount : UInt16 := 0xffff

end ElfFormat
