import ByteIndex.Bytes
import ByteIndex.Error
/-!
# Map configuration

A map is configured by the longest key that it accepts. A limit of zero would accept the empty key
only and is refused.
-/
namespace ByteIndex

structure Config where
  maxKeyLength : Nat
deriving DecidableEq

namespace Config

/-- No limit below the size of memory. -/
def unbounded : Config := ⟨0xFFFFFFFFFFFFFFFF⟩

/-- Keys of at most 8 KiB. -/
def bounded : Config := ⟨8192⟩

instance : Inhabited Config := ⟨unbounded⟩

def validate (config : Config) : Except Error Unit :=
  if config.maxKeyLength = 0 then .error (.invalidConfig "max_key_len must be > 0") else .ok ()

/-- Refuses a key over the limit. -/
def allow (config : Config) (key : Bytes) : Except Error Unit :=
  if config.maxKeyLength < key.length then
    .error (.keyTooLong key.length config.maxKeyLength)
  else .ok ()

def describe (config : Config) : String :=
  Text.Layout.compact.render (.fields "Config")
    ["max_key_len: " ++ Text.decimal config.maxKeyLength]

end Config
end ByteIndex
