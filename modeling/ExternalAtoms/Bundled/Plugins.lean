import ExternalAtoms.Bundled.Counting
import ExternalAtoms.Bundled.Strings

/-! # The bundled plugins

One plugin with the atoms that build strings, and one with atoms that subtract, copy, compare and
count. The signatures declare how each atom depends on the extensions that it reads.
-/
namespace ExternalAtoms.Bundled

def stringPlugin : Plugin where
  name := "StringPlugin"
  atoms :=
    [⟨⟨"concat", [.tuple], 1, { finiteOutputs := [0] }⟩, concat⟩,
      ⟨⟨"strlen", [.constant], 1, {}⟩, strlen⟩,
      ⟨⟨"substr", [.constant, .constant, .constant], 1, {}⟩, substr⟩]

def testPlugin : Plugin where
  name := "TestPlugin"
  atoms :=
    [⟨⟨"testConcat", [.tuple], 1, {}⟩, joinOperands⟩,
      ⟨⟨"testSetMinus", [.predicate, .predicate], 1,
        { monotonic := [0], antimonotonic := [1] }⟩, setMinus⟩,
      ⟨⟨"testSetMinusTrueAtoms", [.predicate, .predicate], 1, {}⟩, setMinusTrueAtoms⟩,
      ⟨⟨"testSetMinusLearn", [.predicate, .predicate], 1, { learning := false }⟩,
        setMinusLearn⟩,
      ⟨⟨"id", [.predicate], 1, { monotonic := [0] }⟩, identity⟩,
      ⟨⟨"idc", [.constant], 1, {}⟩, identityOfConstant⟩,
      ⟨⟨"testSmallerThan", [.constant, .constant], 0, {}⟩, smallerThan⟩,
      ⟨⟨"isEmpty", [.predicate], 0, { partialAnswers := true }⟩, isEmpty⟩,
      ⟨⟨"numberOfBalls", [.predicate, .constant, .constant], 0, { partialAnswers := true }⟩,
        numberOfBalls⟩]

end ExternalAtoms.Bundled
