import RubyJs.Main
import RubyJs.Proofs.Build.Expansion
import RubyJs.Proofs.Build.Keys
import RubyJs.Proofs.Build.Order
import RubyJs.Proofs.Build.Preloading
import RubyJs.Proofs.Build.SearchPaths
import RubyJs.Proofs.Build.Termination
import RubyJs.Proofs.Emission.Layouts
import RubyJs.Proofs.Exceptions.Units
import RubyJs.Proofs.Functions
import RubyJs.Proofs.JavaScript.Strings
import RubyJs.Proofs.Names.Locals
import RubyJs.Proofs.Outcomes
import RubyJs.Proofs.Parameters
import RubyJs.Proofs.Positions
import RubyJs.Proofs.Syntax.ArgumentBodies
import RubyJs.Proofs.Syntax.CommentLines
import RubyJs.Proofs.Syntax.EndData
import RubyJs.Proofs.Syntax.Precedence
import RubyJs.Proofs.Syntax.Scoping
import RubyJs.Proofs.Token.Tiling
