import BnfSuppression.Toml.Reader
import BnfSuppression.Toml.Writer

/-!
# Formats of configuration files

A format reads the text of a configuration file as a table, and writes a table as a text. What a
program makes of configuration files asks for no more, so it is the same for every format; laws that
a format has to keep are predicates of it.

## Main definitions

* `Toml.Format`: a reader and a writer of tables.
* `Toml.Format.standard`: the format that the program uses.
-/

namespace BnfSuppression.Toml

/-- A reader and a writer of tables. -/
structure Format where
  /-- The table that the text of a file stands for. -/
  read : String → Except Failure Table
  /-- A table as the text of a file. -/
  write : Table → String

/-- The format that the program uses. -/
def Format.standard : Format := ⟨Toml.read, Toml.write⟩

end BnfSuppression.Toml
