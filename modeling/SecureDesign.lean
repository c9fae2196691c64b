import SecureDesign.CLang.Buffer
import SecureDesign.CLang.Hex
import SecureDesign.CLang.Integer
import SecureDesign.CLang.Loop
import SecureDesign.CLang.Bits
import SecureDesign.Class17.HexDump
import SecureDesign.Class3.ShowBits
import SecureDesign.CLang.Chain
import SecureDesign.Class9.LinkedList
import SecureDesign.Class9.PrintList
import SecureDesign.Class12.Cli
import SecureDesign.Class23.Dictionary
import SecureDesign.Class23.Bounds
import SecureDesign.Class23.Search
import SecureDesign.Mpir.AddSub
import SecureDesign.Mpir.Bases
import SecureDesign.Mpir.DivExact
import SecureDesign.Mpir.GetStrBase
import SecureDesign.Mpir.Longlong
import SecureDesign.Mpir.Mul
import SecureDesign.Mpir.MulDiv
import SecureDesign.Mpir.Powers
import SecureDesign.Mpir.SetStr
import SecureDesign.Mpir.SetStrBase
import SecureDesign.Mpir.GetStr
import SecureDesign.CLang.Simulation
import SecureDesign.Class10.GmpStarter
import SecureDesign.Mpir.Istream
