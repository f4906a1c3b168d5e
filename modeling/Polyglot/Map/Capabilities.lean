/-!
# Capabilities

What an editor may do through a mapping: one bit for each feature.
-/

namespace Polyglot

/-- A set of editor features. -/
abbrev Capabilities := BitVec 12

namespace Capabilities

def diagnostics : Capabilities := 0x001
def semantic : Capabilities := 0x002
def rename : Capabilities := 0x004
def format : Capabilities := 0x008
/-- Definitions and references. -/
def navigation : Capabilities := 0x010
def completion : Capabilities := 0x020
/-- Symbols and outline. -/
def structure_ : Capabilities := 0x040
def autoInsert : Capabilities := 0x080
def hover : Capabilities := 0x100
def codeLens : Capabilities := 0x200
def folding : Capabilities := 0x400
def color : Capabilities := 0x800

def empty : Capabilities := 0

def all : Capabilities := 0xFFF

/-- Everything but the features of `other`. -/
def without (c other : Capabilities) : Capabilities := c &&& ~~~other

/-- Every feature of the filter is in the set. -/
def allows (c filter : Capabilities) : Bool := c &&& filter == filter

theorem allows_all (filter : Capabilities) : all.allows filter = true := by
  have h : all = BitVec.allOnes 12 := by decide
  simp only [allows, h, BitVec.allOnes_and, beq_self_eq_true]

theorem allows_zero (c : Capabilities) : c.allows 0 = true := by simp [allows]

end Capabilities

end Polyglot
