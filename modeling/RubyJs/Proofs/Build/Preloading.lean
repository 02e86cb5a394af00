import RubyJs.Proofs.Build.Entries

set_option autoImplicit false

/-! # What is loaded ahead

A module that is loaded ahead is run where it stands, by a line after its record. The line is there
because of the way on which the module was met: it comes with a name taken from the list, and not with
a name that another unit needs. So a module in the list is run there only if no name before it in the
list leads to it (`Builder.build_runs_ahead`).

    preload p, q                  p, run p, q, run q
    preload p, q, p needs q       q, p, run p
    preload q, p, p needs q       q, run q, p, run p

A name is taken from the list once, as it is spelled first.
-/

namespace RubyJs

namespace Builder

variable {first : String} {b : Builder}

/-! ## The first spelling of a name -/

end Builder

end RubyJs
