import Branchwise.Main
import Branchwise.Proofs.Branches.Window
import Branchwise.Proofs.Cache.Run
import Branchwise.Proofs.Command.Batch
import Branchwise.Proofs.Expr.Binding
import Branchwise.Proofs.Expr.Record
import Branchwise.Proofs.Expr.TrialOrder
import Branchwise.Proofs.Formula.Alike
import Branchwise.Proofs.Formula.Composition
import Branchwise.Proofs.Formula.Equality
import Branchwise.Proofs.Formula.Fault
import Branchwise.Proofs.Formula.Label
import Branchwise.Proofs.Formula.Printed
import Branchwise.Proofs.Formula.Products
import Branchwise.Proofs.Formula.Renaming
import Branchwise.Proofs.Multifunction.Assignment
import Branchwise.Proofs.Multifunction.Composition
import Branchwise.Proofs.Multifunction.Count
import Branchwise.Proofs.Multifunction.Derived
import Branchwise.Proofs.Multifunction.Names
import Branchwise.Proofs.Multifunction.Parentheses
import Branchwise.Proofs.Multifunction.Principal
import Branchwise.Proofs.Multifunction.Substitution
import Branchwise.Proofs.Point
import Branchwise.Proofs.Token.FirstFault
