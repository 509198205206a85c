import Std.Data.TreeMap.Basic
import NestedStyles.Source.Basic

/-!
# Sources kept in memory
-/

namespace NestedStyles

/-- Texts under their names. -/
structure MemoryStore where
  texts : Std.TreeMap String String := ∅

namespace MemoryStore

def add (store : MemoryStore) (name contents : String) : MemoryStore := ⟨store.texts.insert name contents⟩

def remove (store : MemoryStore) (name : String) : MemoryStore := ⟨store.texts.erase name⟩

def get? (store : MemoryStore) (name : String) : Option String := store.texts[name]?

def size (store : MemoryStore) : Nat := store.texts.size

/-- The first candidate that is in the store. -/
def find? (store : MemoryStore) (identifier : String) : Option Source :=
  (Source.candidates identifier).findSome? fun name =>
    (store.get? name).map fun contents => { uri := name, contents }

def provider (store : MemoryStore) : Provider where
  name := "InMemoryResolver"
  find identifier := (store.find? identifier, [])

end MemoryStore

end NestedStyles
