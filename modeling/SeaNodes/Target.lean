import SeaNodes.Fault

namespace SeaNodes

/-- An instruction set. -/
inductive Arch where
  | x64 | arm64 | riscv64
deriving DecidableEq, Inhabited

/-- A calling convention. -/
inductive Abi where
  | systemV | win64 | aapcs64 | lp64d
deriving DecidableEq, Inhabited

namespace Arch

def name : Arch → String
  | .x64 => "x86-64"
  | .arm64 => "arm64"
  | .riscv64 => "riscv64"

def defaultAbi : Arch → Abi
  | .x64 => .systemV
  | .arm64 => .aapcs64
  | .riscv64 => .lp64d

/-- Reads a name, of which case does not matter. -/
def parse (s : String) : Except Fault Arch :=
  match s.toLower with
  | "x86-64" | "x86_64" | "x64" | "amd64" => .ok .x64
  | "arm64" | "aarch64" => .ok .arm64
  | "riscv64" | "riscv" | "rv64" => .ok .riscv64
  | _ => .error (.illegal s .unknownArchitecture)

end Arch

namespace Abi

def name : Abi → String
  | .systemV => "systemv"
  | .win64 => "win64"
  | .aapcs64 => "aapcs64"
  | .lp64d => "lp64d"

/-- Reads a name, of which case does not matter. -/
def parse (s : String) : Except Fault Abi :=
  match s.toLower with
  | "systemv" | "sysv" => .ok .systemV
  | "win64" | "windows" => .ok .win64
  | "aapcs64" | "aapcs" => .ok .aapcs64
  | "lp64d" | "lp64" => .ok .lp64d
  | _ => .error (.illegal s .unknownAbi)

/-- Whether the convention is defined for an instruction set. -/
def isFor : Abi → Arch → Bool
  | .systemV, .x64 | .win64, .x64 | .aapcs64, .arm64 | .lp64d, .riscv64 => true
  | _, _ => false

end Abi

structure Target where
  arch : Arch
  abi : Abi
deriving DecidableEq, Inhabited

namespace Target

def name (t : Target) : String := t.arch.name ++ "/" ++ t.abi.name

/-- Pairs an instruction set with a convention that is defined for it. -/
def pair (arch : Arch) (abi : Abi) : Except Fault Target :=
  if abi.isFor arch then .ok ⟨arch, abi⟩
  else .error (.illegal (name ⟨arch, abi⟩) .abiUnavailable)

def ofArch (arch : Arch) : Target := ⟨arch, arch.defaultAbi⟩

/-- Reads an instruction set, or an instruction set and a convention with a slash between. -/
def parse (s : String) : Except Fault Target := do
  match s.toList.span (· != '/') with
  | (_, []) => return ofArch (← Arch.parse s)
  | (arch, _ :: abi) =>
    let arch ← Arch.parse (String.ofList arch)
    pair arch (← Abi.parse (String.ofList abi))

end Target

end SeaNodes
