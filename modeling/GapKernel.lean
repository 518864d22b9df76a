import GapKernel.BalTree.Lemmas.Run
import GapKernel.Blister.Lemmas.Position
import GapKernel.CopyBits.Lemmas
import GapKernel.CosetTable.Lemmas.Deductions
import GapKernel.CosetTable.Lemmas.LowIndex
import GapKernel.CosetTable.Lemmas.StandardTable
import GapKernel.Cyclotom.Lemmas
import GapKernel.Finfield.Lemmas.Laws
import GapKernel.Finfield.Lemmas.Table
import GapKernel.Integer.Lemmas.HexSpec
import GapKernel.Integer.Lemmas.Power
import GapKernel.ListFunc.Lemmas.Components
import GapKernel.ListFunc.Lemmas.CopyEntries
import GapKernel.ObjFgElm.Lemmas.Power
import GapKernel.ObjSet.Lemmas.Set
import GapKernel.OnLists.Spec
import GapKernel.PRec.Lemmas.Run
import GapKernel.Partition.Lemmas.Run
import GapKernel.Permutat.Lemmas.Literal
import GapKernel.Permutat.Lemmas.Mapping
import GapKernel.Permutat.Lemmas.Smallest
import GapKernel.PlainSet.Lemmas.Spec
import GapKernel.PlistElms.Assign
import GapKernel.Range.Lemmas.Check
import GapKernel.Range.Lemmas.Conv
import GapKernel.Range.Lemmas.Inter
import GapKernel.Rational.Lemmas
import GapKernel.Scanner.Lemmas.Token
import GapKernel.SubgroupTree.Lemmas.Factor
import GapKernel.SubgroupTree.Lemmas.TreeEntry
import GapKernel.SymbolTable.Threads
import GapKernel.Tietze.Lemmas.Counts
import GapKernel.Tietze.Lemmas.Reduce
import GapKernel.Tietze.Lemmas.Unaltered
import GapKernel.Trans.Lemmas.ComponentsSpec
import GapKernel.Trans.Lemmas.Inverse
import GapKernel.VecGF2.Lemmas.Kronecker
import GapKernel.VecGF2.Lemmas.Locked
import GapKernel.VecGF2.Lemmas.Matrix
